import GlslShrink.Traversal.Walk

/-!
Looking at every node of a tree. A visitor does something before a node, something at it and
something after it. What it does at a node decides whether, and how often, the children are
visited; left alone, it visits them once. What it does after a node happens even if the node or its
children failed.
-/

set_option autoImplicit false

namespace GlslShrink

structure Visitor (σ : Type) where
  before : Node → Walk σ Unit := fun _ => pure ()
  after : Node → Walk σ Unit := fun _ => pure ()
  /-- What happens at a node; `descend` visits its children. -/
  visiting : Node → (descend : Walk σ Unit) → Walk σ Unit := fun _ descend => descend

mutual

def Visitor.visit {σ : Type} (visitor : Visitor σ) : Node → Walk σ Unit
  | ⟨mark, tag, value, qualifiers, slots⟩ => do
    let node : Node := ⟨mark, tag, value, qualifiers, slots⟩
    visitor.before node
    Walk.ensuring
      (visitor.visiting node (do
        Walk.checkLayout node
        visitor.visitSlots slots))
      (visitor.after node)

def Visitor.visitSlots {σ : Type} (visitor : Visitor σ) : List (Slot Node) → Walk σ Unit
  | [] => pure ()
  | slot :: slots => do
    visitor.visitSlot slot
    visitor.visitSlots slots

def Visitor.visitSlot {σ : Type} (visitor : Visitor σ) : Slot Node → Walk σ Unit
  | .absent => pure ()
  | .one child => visitor.visit child
  | .many children => visitor.visitList children

def Visitor.visitList {σ : Type} (visitor : Visitor σ) : List Node → Walk σ Unit
  | [] => pure ()
  | node :: nodes => do
    visitor.visit node
    visitor.visitList nodes

end

namespace Visitor

variable {σ : Type}

/-- Visits the children of a node. -/
def visitChildren (visitor : Visitor σ) (node : Node) : Walk σ Unit := do
  Walk.checkLayout node
  visitor.visitSlots node.slots

/-- At every node the visitor decides about a visit of its children. -/
theorem visit_eq (visitor : Visitor σ) (node : Node) :
    visitor.visit node = (do
      visitor.before node
      Walk.ensuring (visitor.visiting node (visitor.visitChildren node)) (visitor.after node)) := by
  cases node with
  | mk mark tag value qualifiers slots => rw [visit]; rfl

/-- The state that a visit of the whole tree leaves. -/
def collect (visitor : Visitor σ) (start : σ) (root : Node) : Except Fault σ := do
  let ((), state) ← (visitor.visit root).runFrom start
  return state

end Visitor

end GlslShrink
