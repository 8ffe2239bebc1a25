import GlslShrink.Tree.Tag

/-!
Shader trees. A node has a category, a token of its own (a name, a literal, an operator or the text
of a directive), the qualifiers written in front of it, and its places. Trees are values: changing
a node means building another one.

Every node carries a mark. It says which node of a given tree this one stands for and how often it
has been rebuilt since, so that "the very same node" and "another node in the same place" can be
told apart. Nothing but diagnostics looks at marks.
-/

set_option autoImplicit false

namespace GlslShrink

/-- What stands in one place of a node. -/
inductive Slot (α : Type) where
  | absent
  | one (child : α)
  | many (children : List α)
  deriving DecidableEq, Repr

namespace Slot

variable {α β : Type}

def ofOption : Option α → Slot α
  | none => absent
  | some child => one child

def toList : Slot α → List α
  | absent => []
  | one child => [child]
  | many children => children

def map (f : α → β) : Slot α → Slot β
  | absent => absent
  | one child => one (f child)
  | many children => many (children.map f)

def fits : Slot α → SlotKind → Bool
  | one _, .required => true
  | one _, .optional => true
  | absent, .optional => true
  | many _, .list => true
  | _, _ => false

/-- The single child in place `i`, if that place holds one. -/
def childAt (slots : List (Slot α)) (i : Nat) : Option α :=
  match slots[i]? with
  | some (one child) => some child
  | _ => none

/-- The children in place `i`; none if that place does not hold a list. -/
def listAt (slots : List (Slot α)) (i : Nat) : List α :=
  match slots[i]? with
  | some (many children) => children
  | _ => []

/-- Whether there is one slot for every place of the layout, each of the right kind. -/
def fitAll : List (Slot α) → List SlotKind → Bool
  | [], [] => true
  | slot :: slots, kind :: kinds => slot.fits kind && fitAll slots kinds
  | _, _ => false

@[simp]
theorem toList_map (f : α → β) (slot : Slot α) : (slot.map f).toList = slot.toList.map f := by
  cases slot <;> rfl

@[simp]
theorem childAt_map (f : α → β) (slots : List (Slot α)) (i : Nat) :
    childAt (slots.map (Slot.map f)) i = (childAt slots i).map f := by
  simp only [childAt, List.getElem?_map]
  cases slots[i]? with
  | none => rfl
  | some slot => cases slot <;> rfl

@[simp]
theorem listAt_map (f : α → β) (slots : List (Slot α)) (i : Nat) :
    listAt (slots.map (Slot.map f)) i = (listAt slots i).map f := by
  simp only [listAt, List.getElem?_map]
  cases slots[i]? with
  | none => rfl
  | some slot => cases slot <;> rfl

end Slot

/-- Which node this one stands for: `id` numbers a node of the tree that was given and is missing on
a node made on the way, `revision` counts how often it has been rebuilt. -/
structure Mark where
  id : Option Nat := none
  revision : Nat := 0
  deriving DecidableEq, Repr

def Mark.rebuilt (mark : Mark) : Mark :=
  { mark with revision := mark.revision + 1 }

structure Node where
  mark : Mark
  tag : Tag
  value : String
  qualifiers : List String
  slots : List (Slot Node)

instance : Inhabited Node :=
  ⟨⟨{}, .scope, "", [], []⟩⟩

namespace Node

/-- A node that stands for no other. -/
def new (tag : Tag) (value : String) (qualifiers : List String) (slots : List (Slot Node)) : Node :=
  ⟨{}, tag, value, qualifiers, slots⟩

def leaf (tag : Tag) (value : String) : Node :=
  new tag value [] []

def hasQualifier (node : Node) (qualifier : String) : Bool :=
  node.qualifiers.contains qualifier

def child? (node : Node) (i : Nat) : Option Node :=
  Slot.childAt node.slots i

def list (node : Node) (i : Nat) : List Node :=
  Slot.listAt node.slots i

/-- The children that are there, in the order of their places. -/
def children (node : Node) : List Node :=
  node.slots.flatMap Slot.toList

/-- Whether the node's own places match the layout of its category. -/
def fitsLayout (node : Node) : Bool :=
  Slot.fitAll node.slots node.tag.layout

def withValue (node : Node) (value : String) : Node :=
  { node with mark := node.mark.rebuilt, value := value }

def withSlots (node : Node) (slots : List (Slot Node)) : Node :=
  { node with mark := node.mark.rebuilt, slots := slots }

/-- Puts another slot in place `i`. If there is no such place, only the mark changes. -/
def withSlot (node : Node) (i : Nat) (slot : Slot Node) : Node :=
  node.withSlots (node.slots.set i slot)

end Node

mutual

/-- Combines, bottom up, what `combine` makes of every node and of the results for its children. -/
def Node.fold {α : Type} (combine : Node → List (Slot α) → α) : Node → α
  | ⟨mark, tag, value, qualifiers, slots⟩ =>
    combine ⟨mark, tag, value, qualifiers, slots⟩ (Node.foldSlots combine slots)

def Node.foldSlots {α : Type} (combine : Node → List (Slot α) → α) :
    List (Slot Node) → List (Slot α)
  | [] => []
  | slot :: slots => Node.foldSlot combine slot :: Node.foldSlots combine slots

def Node.foldSlot {α : Type} (combine : Node → List (Slot α) → α) : Slot Node → Slot α
  | .absent => .absent
  | .one child => .one (Node.fold combine child)
  | .many children => .many (Node.foldList combine children)

def Node.foldList {α : Type} (combine : Node → List (Slot α) → α) : List Node → List α
  | [] => []
  | node :: nodes => Node.fold combine node :: Node.foldList combine nodes

end

mutual

/-- Whether two trees agree in everything but their marks. -/
def Node.sameShape : Node → Node → Bool
  | ⟨_, tag, value, qualifiers, slots⟩, ⟨_, tag', value', qualifiers', slots'⟩ =>
    tag == tag' && value == value' && qualifiers == qualifiers' && Node.sameSlots slots slots'

def Node.sameSlots : List (Slot Node) → List (Slot Node) → Bool
  | [], [] => true
  | slot :: slots, slot' :: slots' => Node.sameSlot slot slot' && Node.sameSlots slots slots'
  | _, _ => false

def Node.sameSlot : Slot Node → Slot Node → Bool
  | .absent, .absent => true
  | .one child, .one child' => Node.sameShape child child'
  | .many children, .many children' => Node.sameLists children children'
  | _, _ => false

def Node.sameLists : List Node → List Node → Bool
  | [], [] => true
  | node :: nodes, node' :: nodes' => Node.sameShape node node' && Node.sameLists nodes nodes'
  | _, _ => false

end

mutual

/-- Numbers the nodes of a tree in preorder from `start`; also gives the first number not used. -/
def Node.numberFrom (start : Nat) : Node → Node × Nat
  | ⟨_, tag, value, qualifiers, slots⟩ =>
    let (numbered, next) := Node.numberSlots (start + 1) slots
    (⟨{ id := some start }, tag, value, qualifiers, numbered⟩, next)

def Node.numberSlots (start : Nat) : List (Slot Node) → List (Slot Node) × Nat
  | [] => ([], start)
  | slot :: slots =>
    let (first, middle) := Node.numberSlot start slot
    let (others, next) := Node.numberSlots middle slots
    (first :: others, next)

def Node.numberSlot (start : Nat) : Slot Node → Slot Node × Nat
  | .absent => (.absent, start)
  | .one child =>
    let (numbered, next) := Node.numberFrom start child
    (.one numbered, next)
  | .many children =>
    let (numbered, next) := Node.numberList start children
    (.many numbered, next)

def Node.numberList (start : Nat) : List Node → List Node × Nat
  | [] => ([], start)
  | node :: nodes =>
    let (first, middle) := Node.numberFrom start node
    let (others, next) := Node.numberList middle nodes
    (first :: others, next)

end

namespace Node

theorem foldSlots_eq {α : Type} (combine : Node → List (Slot α) → α) (slots : List (Slot Node)) :
    foldSlots combine slots = slots.map (foldSlot combine) := by
  induction slots with
  | nil => rfl
  | cons slot slots ih => simp [foldSlots, ih]

theorem foldList_eq {α : Type} (combine : Node → List (Slot α) → α) (nodes : List Node) :
    foldList combine nodes = nodes.map (fold combine) := by
  induction nodes with
  | nil => rfl
  | cons node nodes ih => simp [foldList, ih]

theorem foldSlot_eq {α : Type} (combine : Node → List (Slot α) → α) (slot : Slot Node) :
    foldSlot combine slot = slot.map (fold combine) := by
  cases slot with
  | absent => rfl
  | one child => rfl
  | many children => simp [foldSlot, Slot.map, foldList_eq]

/-- A fold sees a node together with the folds of its children. -/
theorem fold_eq {α : Type} (combine : Node → List (Slot α) → α) (node : Node) :
    node.fold combine = combine node (node.slots.map (Slot.map (fold combine))) := by
  cases node with
  | mk mark tag value qualifiers slots =>
    have h : foldSlot combine = Slot.map (fold combine) := funext (foldSlot_eq combine)
    simp [fold, foldSlots_eq, h]

def total : List Nat → Nat
  | [] => 0
  | n :: rest => n + total rest

/-- The number of nodes of a tree. -/
def size : Node → Nat :=
  fold (fun _ slots => 1 + total (slots.flatMap Slot.toList))

/-- All nodes of a tree, each before its children. -/
def preorder : Node → List Node :=
  fold (fun node slots => node :: (slots.flatMap Slot.toList).flatten)

/-- The tree with its nodes numbered in preorder from `start`. -/
def numbered (start : Nat) (node : Node) : Node :=
  (node.numberFrom start).1

end Node

end GlslShrink
