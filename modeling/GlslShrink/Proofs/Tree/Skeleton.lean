import GlslShrink.Proofs.Renaming.Relabel

/-!
The categories of the nodes of a tree. The skeleton of a tree forgets marks, values and qualifiers,
so that trees that differ only in marks or spelling have the same one (`skeleton_bare`,
`skeleton_relabel`). How often some categories occur in a tree can be told from its skeleton
(`tally_skeleton`).
-/

set_option autoImplicit false

namespace GlslShrink.Node

/-- The tree with nothing but the categories of its nodes. -/
def skeleton : Node → Node :=
  fold fun node slots => new node.tag "" [] slots

theorem skeleton_eq (node : Node) :
    node.skeleton = new node.tag "" [] (node.slots.map (Slot.map skeleton)) :=
  fold_eq _ node

@[simp]
theorem skeleton_tag (node : Node) : node.skeleton.tag = node.tag := by
  rw [skeleton_eq, new]

theorem skeleton_slots (node : Node) :
    node.skeleton.slots = node.slots.map (Slot.map skeleton) := by
  rw [skeleton_eq, new]

theorem child?_skeleton (node : Node) (i : Nat) :
    node.skeleton.child? i = (node.child? i).map skeleton := by
  rw [child?, skeleton_slots, Slot.childAt_map, child?]

theorem list_skeleton (node : Node) (i : Nat) :
    node.skeleton.list i = (node.list i).map skeleton := by
  rw [list, skeleton_slots, Slot.listAt_map, list]

theorem children_skeleton (node : Node) :
    node.skeleton.children = node.children.map skeleton := by
  rw [children, skeleton_slots, flatMap_toList_map, children]

theorem skeleton_skeleton (node : Node) : node.skeleton.skeleton = node.skeleton := by
  induction node using induct with
  | h node ih => rw [skeleton_eq, skeleton_tag, skeleton_slots, map_map_congr ih, ← skeleton_eq]

theorem skeleton_withSlot (node : Node) (i : Nat) (slot : Slot Node) :
    (node.withSlot i slot).skeleton =
      new node.tag "" [] (node.skeleton.slots.set i (slot.map skeleton)) := by
  rw [skeleton_eq, skeleton_slots, withSlot, withSlots, List.map_set]

theorem skeleton_bare (node : Node) : node.bare.skeleton = node.skeleton := by
  induction node using induct with
  | h node ih => rw [skeleton_eq, bare_tag, bare_slots, map_map_congr ih, ← skeleton_eq]

theorem skeleton_relabel (spelling : Spelling) (node : Node) (depth : Nat) :
    (node.relabel spelling depth).skeleton = node.skeleton := by
  induction node using induct generalizing depth with
  | h node ih =>
    rw [skeleton_eq, relabel_tag, relabel_eq, map_map_congr fun child hchild =>
      ih child hchild (node.innerDepth depth), ← skeleton_eq]

/-- Trees of the same shape have the same skeleton. -/
theorem skeleton_of_bare {old new : Node} (h : new.bare = old.bare) :
    new.skeleton = old.skeleton := by
  rw [← skeleton_bare, h, skeleton_bare]

/-! ### Counting -/

/-- How many nodes of a tree have one of the categories. -/
def tally (counted : Tag → Bool) (node : Node) : Nat :=
  node.preorder.countP fun node => counted node.tag

def tallyAll (counted : Tag → Bool) (nodes : List Node) : Nat :=
  (nodes.flatMap preorder).countP fun node => counted node.tag

variable (counted : Tag → Bool)

theorem tally_eq (node : Node) :
    node.tally counted = tallyAll counted node.children + (counted node.tag).toNat := by
  rw [tally, preorder_eq, List.countP_cons, tallyAll]
  cases counted node.tag <;> rfl

theorem tallyAll_nil : tallyAll counted [] = 0 :=
  rfl

theorem tallyAll_cons (node : Node) (nodes : List Node) :
    tallyAll counted (node :: nodes) = node.tally counted + tallyAll counted nodes := by
  rw [tallyAll, List.flatMap_cons, List.countP_append, tally, tallyAll]

theorem tallyAll_append (nodes others : List Node) :
    tallyAll counted (nodes ++ others) = tallyAll counted nodes + tallyAll counted others := by
  rw [tallyAll, List.flatMap_append, List.countP_append, tallyAll, tallyAll]

theorem tallyAll_map {f : Node → Node} {nodes : List Node}
    (h : ∀ node ∈ nodes, (f node).tally counted = node.tally counted) :
    tallyAll counted (nodes.map f) = tallyAll counted nodes := by
  induction nodes with
  | nil => rfl
  | cons node nodes ih =>
    obtain ⟨hnode, hnodes⟩ := List.forall_mem_cons.mp h
    rw [List.map_cons, tallyAll_cons, tallyAll_cons, hnode, ih hnodes]

theorem tally_skeleton (node : Node) : node.skeleton.tally counted = node.tally counted := by
  induction node using induct with
  | h node ih =>
    rw [tally_eq, tally_eq counted node, skeleton_tag, children_skeleton, tallyAll_map counted ih]

theorem tally_of_bare {old new : Node} (h : new.bare = old.bare) :
    new.tally counted = old.tally counted := by
  rw [← tally_skeleton, skeleton_of_bare h, tally_skeleton]

theorem tally_le_of_mem {node : Node} {nodes : List Node} (h : node ∈ nodes) :
    node.tally counted ≤ tallyAll counted nodes := by
  obtain ⟨before, after, rfl⟩ := List.append_of_mem h
  rw [tallyAll_append, tallyAll_cons]
  omega

theorem tallyAll_set {slots : List (Slot Node)} {i : Nat} {old : Slot Node}
    (h : slots[i]? = some old) (new : Slot Node) :
    tallyAll counted ((slots.set i new).flatMap Slot.toList) + tallyAll counted old.toList =
      tallyAll counted (slots.flatMap Slot.toList) + tallyAll counted new.toList := by
  induction slots generalizing i with
  | nil => cases h
  | cons slot slots ih =>
    cases i with
    | zero =>
      cases h
      rw [List.set_cons_zero, List.flatMap_cons, List.flatMap_cons, tallyAll_append,
        tallyAll_append]
      omega
    | succ i =>
      have hrest := ih h
      rw [List.set_cons_succ, List.flatMap_cons, List.flatMap_cons, tallyAll_append,
        tallyAll_append]
      omega

/-- What is put in a place counts instead of what stood there. -/
theorem tally_withSlot {node : Node} {i : Nat} {old : Slot Node} (h : node.slots[i]? = some old)
    (new : Slot Node) :
    (node.withSlot i new).tally counted + tallyAll counted old.toList =
      node.tally counted + tallyAll counted new.toList := by
  have hslots := tallyAll_set counted h new
  rw [tally_eq, tally_eq counted node]
  simp only [withSlot, withSlots, children] at hslots ⊢
  omega

theorem slots_of_list {node : Node} {i : Nat} (h : node.list i ≠ []) :
    node.slots[i]? = some (.many (node.list i)) := by
  unfold list Slot.listAt at h ⊢
  split at h
  · rename_i children hslot
    rw [hslot]
  · exact absurd rfl h

theorem tallyAll_list_le (node : Node) (i : Nat) :
    tallyAll counted (node.list i) + (counted node.tag).toNat ≤ node.tally counted := by
  by_cases hlist : node.list i = []
  · rw [hlist, tallyAll_nil, tally_eq]
    omega
  · have hrest := tally_withSlot counted (slots_of_list hlist) .absent
    have hself := tally_eq counted (node.withSlot i .absent)
    simp only [Slot.toList, withSlot, withSlots] at hrest hself
    rw [tallyAll_nil] at hrest
    omega

/-- Where no child counts for more than before, the node does not; where one counts for less, so
does the node. -/
theorem tally_of_over {R : Node → Node → Prop} {old new : Node} (hover : old.Over R new)
    (hle : ∀ a b, R a b → b.tally counted ≤ a.tally counted) :
    new.tally counted ≤ old.tally counted ∧
      ((∃ a ∈ old.children, ∀ b, R a b → b.tally counted < a.tally counted) →
        new.tally counted < old.tally counted) := by
  have hall : ∀ {nodes nodes' : List Node}, List.Forall₂ R nodes nodes' →
      tallyAll counted nodes' ≤ tallyAll counted nodes ∧
        ((∃ a ∈ nodes, ∀ b, R a b → b.tally counted < a.tally counted) →
          tallyAll counted nodes' < tallyAll counted nodes) := by
    intro nodes nodes' hrelated
    induction hrelated with
    | nil => exact ⟨Nat.le_refl _, fun h => by simp at h⟩
    | @cons a b nodes nodes' hfirst _ ih =>
      have hfirst' := hle a b hfirst
      rw [tallyAll_cons, tallyAll_cons]
      refine ⟨by omega, ?_⟩
      rintro ⟨other, hother, hless⟩
      rcases List.mem_cons.mp hother with rfl | hother
      · have hless := hless b hfirst
        omega
      · have hless := ih.2 ⟨other, hother, hless⟩
        omega
  obtain ⟨hchildren, hless⟩ := hall hover.children
  rw [tally_eq, tally_eq counted old, hover.tag]
  exact ⟨by omega, fun h => by have := hless h; omega⟩

end GlslShrink.Node
