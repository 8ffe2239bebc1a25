import GlslShrink.Traversal.Walk

/-!
Changing trees. What an editor makes of a node is either nothing, which deletes it, or a change:
the node as it is, or another one in its place. A node is rebuilt only if one of its children was
deleted or became another node; otherwise it stays the very node it was.
-/

set_option autoImplicit false

namespace GlslShrink

/-- What becomes of a node that is not deleted. -/
inductive Change where
  | unchanged
  | became (node : Node)

namespace Change

/-- The node after the change. -/
def result (change : Change) (old : Node) : Node :=
  match change with
  | unchanged => old
  | became node => node

def isUnchanged : Change → Bool
  | unchanged => true
  | became _ => false

end Change

structure Editor (σ : Type) where
  before : Node → Walk σ Unit := fun _ => pure ()
  after : Node → Walk σ Unit := fun _ => pure ()
  /-- What becomes of a node; `descend` edits its children. -/
  editing : Node → (descend : Walk σ Change) → Walk σ (Option Change) :=
    fun _ descend => do return some (← descend)

mutual

def Editor.edit {σ : Type} (editor : Editor σ) : Node → Walk σ (Option Change)
  | ⟨mark, tag, value, qualifiers, slots⟩ => do
    let node : Node := ⟨mark, tag, value, qualifiers, slots⟩
    editor.before node
    Walk.ensuring
      (editor.editing node (do
        Walk.checkLayout node
        let (edited, changed) ← editor.editSlots node 0 slots
        return if changed then .became (node.withSlots edited) else .unchanged))
      (editor.after node)

/-- Edits the places of `parent` from place `i` on, and says whether any of them changed. -/
def Editor.editSlots {σ : Type} (editor : Editor σ) (parent : Node) (i : Nat) :
    List (Slot Node) → Walk σ (List (Slot Node) × Bool)
  | [] => return ([], false)
  | slot :: slots => do
    let (first, firstChanged) ← editor.editSlot parent i slot
    let (others, othersChanged) ← editor.editSlots parent (i + 1) slots
    return (first :: others, firstChanged || othersChanged)

def Editor.editSlot {σ : Type} (editor : Editor σ) (parent : Node) (i : Nat) :
    Slot Node → Walk σ (Slot Node × Bool)
  | .absent => return (.absent, false)
  | .one child => do
    match ← editor.edit child with
    | some .unchanged => return (.one child, false)
    | some (.became node) => return (.one node, true)
    | none =>
      if parent.tag.layout[i]? = some .optional then return (.absent, true)
      else throw (.deletedChild parent.tag parent.mark.id i)
  | .many children => do
    let (edited, changed) ← editor.editList children
    return (.many edited, changed)

def Editor.editList {σ : Type} (editor : Editor σ) :
    List Node → Walk σ (List Node × Bool)
  | [] => return ([], false)
  | node :: nodes => do
    let change ← editor.edit node
    let (others, othersChanged) ← editor.editList nodes
    match change with
    | some .unchanged => return (node :: others, othersChanged)
    | some (.became other) => return (other :: others, true)
    | none => return (others, true)

end

namespace Editor

variable {σ : Type}

/-- Edits the children of a node. -/
def editChildren (editor : Editor σ) (node : Node) : Walk σ Change := do
  Walk.checkLayout node
  let (edited, changed) ← editor.editSlots node 0 node.slots
  return if changed then .became (node.withSlots edited) else .unchanged

/-- At every node the editor decides about an edit of its children. -/
theorem edit_eq (editor : Editor σ) (node : Node) :
    editor.edit node = (do
      editor.before node
      Walk.ensuring (editor.editing node (editor.editChildren node)) (editor.after node)) := by
  cases node with
  | mk mark tag value qualifiers slots => rw [edit]; rfl

/-- Edits a whole tree, whose root must not be deleted. -/
def apply (editor : Editor σ) (root : Node) : Walk σ Change := do
  match ← editor.edit root with
  | some change => return change
  | none => throw (.deletedRoot root.tag root.mark.id)

end Editor

end GlslShrink
