import GlslShrink.Tree.Form

/-!
Induction over trees, properties of all nodes of a tree, and the shape of a tree. A node holds its
children in lists of slots, so a proof about all trees goes through `Node.induct`: what holds of a
node whenever it holds of its children holds of every node. Two trees have the same shape if and
only if they are equal once their marks are taken off (`sameShape_iff`).
-/

set_option autoImplicit false

namespace GlslShrink.Node

/-! ### Induction -/

section Induction

variable {P : Node → Prop}

mutual

private theorem induct_node (h : ∀ node : Node, (∀ child ∈ node.children, P child) → P node) :
    ∀ node : Node, P node
  | ⟨_, _, _, _, slots⟩ => h _ (induct_slots h slots)

private theorem induct_slots (h : ∀ node : Node, (∀ child ∈ node.children, P child) → P node) :
    ∀ slots : List (Slot Node), ∀ child ∈ slots.flatMap Slot.toList, P child
  | [] => fun _ hchild => absurd hchild (by simp)
  | slot :: slots => fun child hchild => by
    rw [List.flatMap_cons, List.mem_append] at hchild
    exact hchild.elim (induct_slot h slot child) (induct_slots h slots child)

private theorem induct_slot (h : ∀ node : Node, (∀ child ∈ node.children, P child) → P node) :
    ∀ slot : Slot Node, ∀ child ∈ slot.toList, P child
  | .absent => fun _ hchild => absurd hchild (by simp [Slot.toList])
  | .one node => fun child hchild => by
    rw [Slot.toList, List.mem_singleton] at hchild
    exact hchild ▸ induct_node h node
  | .many nodes => induct_list h nodes

private theorem induct_list (h : ∀ node : Node, (∀ child ∈ node.children, P child) → P node) :
    ∀ nodes : List Node, ∀ child ∈ nodes, P child
  | [] => fun _ hchild => absurd hchild (by simp)
  | node :: nodes => fun child hchild => by
    rw [List.mem_cons] at hchild
    exact hchild.elim (fun heq => heq ▸ induct_node h node) (induct_list h nodes child)

end

/-- What holds of a node whenever it holds of its children holds of every node. -/
theorem induct (h : ∀ node : Node, (∀ child ∈ node.children, P child) → P node) (node : Node) :
    P node :=
  induct_node h node

end Induction

/-! ### All nodes of a tree -/

theorem flatMap_toList_map {α : Type} (f : Node → α) (slots : List (Slot Node)) :
    (slots.map (Slot.map f)).flatMap Slot.toList = (slots.flatMap Slot.toList).map f := by
  rw [List.flatMap_map, List.map_flatMap]
  simp only [Slot.toList_map]

theorem preorder_eq (node : Node) :
    node.preorder = node :: node.children.flatMap preorder := by
  rw [preorder, fold_eq, flatMap_toList_map, children, ← List.flatMap_def]

/-- The property holds of all nodes of the tree. -/
def Every (p : Node → Prop) (root : Node) : Prop :=
  ∀ node ∈ root.preorder, p node

theorem every_iff {p : Node → Prop} {root : Node} :
    Every p root ↔ p root ∧ ∀ child ∈ root.children, Every p child := by
  simp only [Every, preorder_eq root, List.mem_cons, List.mem_flatMap]
  constructor
  · intro h
    exact ⟨h root (Or.inl rfl),
      fun child hchild node hnode => h node (Or.inr ⟨child, hchild, hnode⟩)⟩
  · rintro ⟨hroot, hchildren⟩ node (rfl | ⟨child, hchild, hnode⟩)
    · exact hroot
    · exact hchildren child hchild node hnode

theorem Every.root {p : Node → Prop} {root : Node} (h : Every p root) : p root :=
  (every_iff.mp h).1

theorem Every.child {p : Node → Prop} {root child : Node} (h : Every p root)
    (hchild : child ∈ root.children) : Every p child :=
  (every_iff.mp h).2 child hchild

theorem Every.imp {p q : Node → Prop} {root : Node} (h : Every p root)
    (himp : ∀ node, p node → q node) : Every q root :=
  fun node hnode => himp node (h node hnode)

theorem Every.and {p q : Node → Prop} {root : Node} (hp : Every p root) (hq : Every q root) :
    Every (fun node => p node ∧ q node) root :=
  fun node hnode => ⟨hp node hnode, hq node hnode⟩

/-! ### Children by place -/

theorem child?_eq_some {node child : Node} {i : Nat} :
    node.child? i = some child ↔ node.slots[i]? = some (.one child) := by
  rw [child?, Slot.childAt]
  split
  · rename_i found hfound
    rw [hfound]
    simp only [Option.some.injEq, Slot.one.injEq]
  · rename_i hother
    refine ⟨fun h => ?_, fun h => absurd h (hother child)⟩
    cases h

theorem mem_children_of_child? {node child : Node} {i : Nat} (h : node.child? i = some child) :
    child ∈ node.children :=
  List.mem_flatMap.mpr
    ⟨_, List.mem_of_getElem? (child?_eq_some.mp h), by simp [Slot.toList]⟩

theorem mem_children_of_mem_list {node child : Node} {i : Nat} (h : child ∈ node.list i) :
    child ∈ node.children := by
  simp only [list, Slot.listAt] at h
  split at h
  · rename_i found hfound
    exact List.mem_flatMap.mpr ⟨_, List.mem_of_getElem? hfound, h⟩
  · cases h

/-! ### Shapes -/

/-- The tree without its marks. -/
def bare : Node → Node :=
  fold fun node slots => new node.tag node.value node.qualifiers slots

theorem bare_eq (node : Node) :
    node.bare = new node.tag node.value node.qualifiers (node.slots.map (Slot.map bare)) :=
  fold_eq _ node

@[simp]
theorem bare_mk (mark : Mark) (tag : Tag) (value : String) (qualifiers : List String)
    (slots : List (Slot Node)) :
    (⟨mark, tag, value, qualifiers, slots⟩ : Node).bare =
      new tag value qualifiers (slots.map (Slot.map bare)) :=
  bare_eq _

@[simp]
theorem bare_tag (node : Node) : node.bare.tag = node.tag := by
  rw [bare_eq, new]

@[simp]
theorem bare_value (node : Node) : node.bare.value = node.value := by
  rw [bare_eq, new]

@[simp]
theorem bare_qualifiers (node : Node) : node.bare.qualifiers = node.qualifiers := by
  rw [bare_eq, new]

theorem bare_slots (node : Node) : node.bare.slots = node.slots.map (Slot.map bare) := by
  rw [bare_eq, new]

mutual

theorem sameShape_iff : ∀ a b : Node, a.sameShape b = true ↔ a.bare = b.bare
  | ⟨_, tag, value, qualifiers, slots⟩, ⟨_, tag', value', qualifiers', slots'⟩ => by
    simp only [sameShape, bare_mk, new, Bool.and_eq_true, beq_iff_eq, mk.injEq, true_and,
      sameSlots_iff slots slots', and_assoc]

theorem sameSlots_iff : ∀ a b : List (Slot Node),
    sameSlots a b = true ↔ a.map (Slot.map bare) = b.map (Slot.map bare)
  | [], [] => by simp [sameSlots]
  | [], _ :: _ => by simp [sameSlots]
  | _ :: _, [] => by simp [sameSlots]
  | slot :: slots, slot' :: slots' => by
    simp only [sameSlots, Bool.and_eq_true, List.map_cons, List.cons.injEq,
      sameSlot_iff slot slot', sameSlots_iff slots slots']

theorem sameSlot_iff : ∀ a b : Slot Node, sameSlot a b = true ↔ a.map bare = b.map bare
  | .absent, .absent => by simp [sameSlot]
  | .absent, .one _ => by simp [sameSlot, Slot.map]
  | .absent, .many _ => by simp [sameSlot, Slot.map]
  | .one _, .absent => by simp [sameSlot, Slot.map]
  | .one child, .one child' => by simp [sameSlot, Slot.map, sameShape_iff child child']
  | .one _, .many _ => by simp [sameSlot, Slot.map]
  | .many _, .absent => by simp [sameSlot, Slot.map]
  | .many _, .one _ => by simp [sameSlot, Slot.map]
  | .many children, .many children' => by
    simp [sameSlot, Slot.map, sameLists_iff children children']

theorem sameLists_iff : ∀ a b : List Node, sameLists a b = true ↔ a.map bare = b.map bare
  | [], [] => by simp [sameLists]
  | [], _ :: _ => by simp [sameLists]
  | _ :: _, [] => by simp [sameLists]
  | node :: nodes, node' :: nodes' => by
    simp only [sameLists, Bool.and_eq_true, List.map_cons, List.cons.injEq,
      sameShape_iff node node', sameLists_iff nodes nodes']

end

theorem map_slots_eq_iff {α : Type} {f g : Node → α} {slots : List (Slot Node)} :
    slots.map (Slot.map f) = slots.map (Slot.map g) ↔
      ∀ child ∈ slots.flatMap Slot.toList, f child = g child := by
  constructor
  · intro heq
    have hchildren := congrArg (List.flatMap Slot.toList) heq
    rw [flatMap_toList_map, flatMap_toList_map] at hchildren
    exact List.map_inj_left.mp hchildren
  · intro heq
    refine List.map_congr_left fun slot hslot => ?_
    have hslot' : ∀ child ∈ slot.toList, f child = g child :=
      fun child hchild => heq child (List.mem_flatMap.mpr ⟨slot, hslot, hchild⟩)
    cases slot with
    | absent => rfl
    | one child => exact congrArg Slot.one (hslot' child (by simp [Slot.toList]))
    | many children => exact congrArg Slot.many (List.map_congr_left hslot')

theorem map_map_slots {α β : Type} (f : Node → α) (g : α → β) (slots : List (Slot Node)) :
    (slots.map (Slot.map f)).map (Slot.map g) = slots.map (Slot.map (g ∘ f)) := by
  rw [List.map_map]
  refine List.map_congr_left fun slot _ => ?_
  cases slot with
  | absent => rfl
  | one child => rfl
  | many children => simp [Slot.map]

/-- What two changes one after the other make of each child, they make of all of them. -/
theorem map_map_congr {α β : Type} {f : Node → α} {g : α → β} {h : Node → β}
    {slots : List (Slot Node)} (heq : ∀ child ∈ slots.flatMap Slot.toList, g (f child) = h child) :
    (slots.map (Slot.map f)).map (Slot.map g) = slots.map (Slot.map h) := by
  rw [map_map_slots, map_slots_eq_iff]
  exact heq

theorem bare_bare (node : Node) : node.bare.bare = node.bare := by
  induction node using induct with
  | h node ih =>
    rw [bare_eq node.bare, bare_tag, bare_value, bare_qualifiers, bare_slots, bare_eq node,
      map_map_congr ih]

theorem child?_bare (node : Node) (i : Nat) : node.bare.child? i = (node.child? i).map bare := by
  rw [child?, bare_slots, Slot.childAt_map, child?]

theorem list_bare (node : Node) (i : Nat) : node.bare.list i = (node.list i).map bare := by
  rw [list, bare_slots, Slot.listAt_map, list]

theorem children_bare (node : Node) : node.bare.children = node.children.map bare := by
  rw [children, bare_slots, flatMap_toList_map, children]

/-- A property that a change of every node does not affect holds all over the changed tree if and
only if it holds all over the tree. -/
theorem every_changed {p : Node → Prop} {f : Node → Node}
    (hchildren : ∀ node, (f node).children = node.children.map f)
    (h : ∀ node, p (f node) ↔ p node) (root : Node) : (f root).Every p ↔ root.Every p := by
  induction root using induct with
  | h root ih =>
    rw [every_iff, every_iff, h root, hchildren]
    simp only [List.mem_map, forall_exists_index, and_imp, forall_apply_eq_imp_iff₂]
    exact and_congr_right fun _ => forall₂_congr ih

/-- A property that does not look at marks holds all over a tree or nowhere differently. -/
theorem every_bare {p : Node → Prop} (h : ∀ node : Node, p node.bare ↔ p node) (root : Node) :
    root.bare.Every p ↔ root.Every p :=
  every_changed children_bare h root

end GlslShrink.Node
