import GlslShrink.Proofs.Printing.Alike

/-!
Rebuilding nodes. A node that is as the grammar builds it, above children that pass the checks
(`Nearly`), stays so when what stands in one of its places is replaced by something that can stand
there (`Nearly.withSlot`). A node that holds statements or declarations then lacks only the check
about `else`.
-/

set_option autoImplicit false

namespace GlslShrink

/-! ### Replacing what stands in one place -/

/-- Whether nodes of this category hold statements or declarations, and impose nothing on them but
their categories. -/
def Tag.holdsStatements : Tag → Bool
  | shader | scope | ifStatement | forLoop | whileLoop | doWhileLoop => true
  | _ => false

namespace Slot

variable {α : Type} {slots : List (Slot α)} {slot : Slot α}

theorem length_of_fitAll {kinds : List SlotKind} (h : fitAll slots kinds = true) :
    slots.length = kinds.length := by
  fun_induction fitAll slots kinds with
  | case1 => rfl
  | case2 first slots kind kinds ih =>
    rw [Bool.and_eq_true] at h
    rw [List.length_cons, List.length_cons, ih h.2]
  | case3 => cases h

theorem eq_many_of_fitAll (h : fitAll slots [.list] = true) : slots = [.many (listAt slots 0)] := by
  match slots, h with
  | [.many _], _ => rfl

theorem fitAll_set {kinds : List SlotKind} (h : fitAll slots kinds = true) {i : Nat}
    {kind : SlotKind} (hkind : kinds[i]? = some kind) (hslot : slot.fits kind = true) :
    fitAll (slots.set i slot) kinds = true := by
  fun_induction fitAll slots kinds generalizing i with
  | case1 => cases hkind
  | case2 first slots kind' kinds ih =>
    rw [Bool.and_eq_true] at h
    cases i with
    | zero =>
      cases hkind
      rw [List.set_cons_zero, fitAll, hslot, h.2, Bool.and_self]
    | succ i => rw [List.set_cons_succ, fitAll, h.1, ih h.2 hkind, Bool.and_self]
  | case3 => cases h

/-- What fits wherever the slot in a place fits can be put in that place. -/
theorem fitAll_set_of_fits {kinds : List SlotKind} (h : fitAll slots kinds = true) {i : Nat}
    {old : Slot α} (hold : slots[i]? = some old)
    (hslot : ∀ kind, old.fits kind = true → slot.fits kind = true) :
    fitAll (slots.set i slot) kinds = true := by
  fun_induction fitAll slots kinds generalizing i with
  | case1 => cases hold
  | case2 first slots kind kinds ih =>
    rw [Bool.and_eq_true] at h
    cases i with
    | zero =>
      cases hold
      rw [List.set_cons_zero, fitAll, hslot kind h.1, h.2, Bool.and_self]
    | succ i => rw [List.set_cons_succ, fitAll, h.1, ih h.2 hold, Bool.and_self]
  | case3 => cases h

end Slot

namespace Node

theorem fitPlaces_set {slots : List (Slot Node)} {places : List (Tag → Bool)}
    (h : fitPlaces slots places = true) {i : Nat} {slot : Slot Node} {allowed : Tag → Bool}
    (hplace : places[i]? = some allowed)
    (hslot : ∀ child ∈ slot.toList, allowed child.tag = true) :
    fitPlaces (slots.set i slot) places = true := by
  fun_induction fitPlaces slots places generalizing i with
  | case1 first slots allowed' places ih =>
    rw [Bool.and_eq_true] at h
    cases i with
    | zero =>
      cases hplace
      rw [List.set_cons_zero, fitPlaces, h.2, List.all_eq_true.mpr hslot, Bool.and_self]
    | succ i => rw [List.set_cons_succ, fitPlaces, h.1, ih h.2 hplace, Bool.and_self]
  | case2 => exact h
  | case3 => cases hplace

theorem length_places (tag : Tag) : tag.places.length = tag.layout.length := by
  cases tag <;> rfl

/-- What stands in a slot has the categories of its place. -/
theorem exists_place {node : Node} (hgrammar : node.fitsGrammar = true) {i : Nat}
    {slot : Slot Node} (hslot : node.slots[i]? = some slot) :
    ∃ allowed, node.tag.places[i]? = some allowed ∧
      ∀ child ∈ slot.toList, allowed child.tag = true := by
  obtain ⟨hlayout, hplaces, -⟩ := fitsGrammar_iff.mp hgrammar
  have hlt : i < node.tag.places.length := by
    rw [length_places, ← Slot.length_of_fitAll hlayout]
    exact (List.getElem?_eq_some_iff.mp hslot).1
  have hplace := List.getElem?_eq_getElem hlt
  exact ⟨_, hplace, fun child hchild => tag_of_fitPlaces hplaces hslot hplace hchild⟩

variable {strict : Bool}

/-- The node is as the grammar builds it, and all below it passes the checks. -/
structure Nearly (strict : Bool) (node : Node) : Prop where
  grammar : node.fitsGrammar = true
  below : ∀ child ∈ node.children, child.Every (Checked strict)

theorem isComplete_of_holdsStatements {node : Node} (htag : node.tag.holdsStatements = true) :
    node.isComplete = true := by
  unfold isComplete
  split <;> simp_all [Tag.holdsStatements]

theorem isUnambiguous_of_holdsStatements {node : Node} (htag : node.tag.holdsStatements = true) :
    node.isUnambiguous = true := by
  unfold isUnambiguous
  split <;> simp_all [Tag.holdsStatements]

theorem keepsElse_of_ne {node : Node} (htag : node.tag ≠ .ifStatement) :
    node.keepsElse = true := by
  rw [keepsElse, bne_iff_ne.mpr htag, Bool.true_or, Bool.true_or]

theorem Nearly.every_checked {node : Node} (h : node.Nearly strict)
    (htag : node.tag.holdsStatements = true) (helse : node.keepsElse = true) :
    node.Every (Checked strict) :=
  every_iff.mpr ⟨⟨h.grammar, fun _ => isUnambiguous_of_holdsStatements htag, helse⟩, h.below⟩

theorem nearly_of_every {node : Node} (h : node.Every (Checked strict)) : node.Nearly strict :=
  ⟨h.root.1, fun _ hchild => h.child hchild⟩

theorem mem_children_withSlot {node child : Node} {i : Nat} {slot : Slot Node}
    (hchild : child ∈ (node.withSlot i slot).children) :
    child ∈ node.children ∨ child ∈ slot.toList := by
  obtain ⟨place, hmem, hinside⟩ := List.mem_flatMap.mp hchild
  rcases List.mem_or_eq_of_mem_set hmem with hmem | rfl
  · exact Or.inl (List.mem_flatMap.mpr ⟨place, hmem, hinside⟩)
  · exact Or.inr hinside

/-- What stands in a place can be replaced by something else that can stand there. -/
theorem Nearly.withSlot {node : Node} (h : node.Nearly strict) {i : Nat} {slot : Slot Node}
    {kind : SlotKind} {allowed : Tag → Bool} (hkind : node.tag.layout[i]? = some kind)
    (hplace : node.tag.places[i]? = some allowed) (hslot : slot.fits kind = true)
    (hchildren : ∀ child ∈ slot.toList, allowed child.tag = true ∧ child.Every (Checked strict))
    (hcomplete : (node.withSlot i slot).isComplete = true) :
    (node.withSlot i slot).Nearly strict := by
  obtain ⟨hlayout, hplaces, hvalue, hqualifiers, -⟩ := fitsGrammar_iff.mp h.grammar
  refine ⟨fitsGrammar_iff.mpr ⟨?_, ?_, hvalue, hqualifiers, hcomplete⟩, fun child hchild => ?_⟩
  · exact Slot.fitAll_set hlayout hkind hslot
  · exact fitPlaces_set hplaces hplace fun child hchild => (hchildren child hchild).1
  · exact (mem_children_withSlot hchild).elim (h.below child) fun h => (hchildren child h).2

theorem firstPlace_of_holdsStatements {tag : Tag} (htag : tag.holdsStatements = true) :
    ∃ allowed, tag.places[0]? = some allowed ∧ allowed .typeName = false := by
  cases tag with
  | shader | scope | ifStatement | forLoop | whileLoop | doWhileLoop => exact ⟨_, rfl, rfl⟩
  | _ => cases htag

theorem isVoidOnly_of_holdsStatements {node : Node} (htag : node.tag.holdsStatements = true)
    (hgrammar : node.fitsGrammar = true) : isVoidOnly [node] = false := by
  obtain ⟨allowed, hplace, htype⟩ := firstPlace_of_holdsStatements htag
  have hnone : (node.child? 0).any (fun type => type.tag == .typeName && type.value == "void") =
      false := by
    cases hchild : node.child? 0 with
    | none => rfl
    | some type =>
      have hallowed := tag_of_child? hgrammar hplace hchild
      have hne : type.tag ≠ .typeName := by
        intro heq
        rw [heq, htype] at hallowed
        cases hallowed
      rw [Option.any_some, beq_eq_false_iff_ne.mpr hne, Bool.false_and]
  rw [isVoidOnly, hnone, Bool.and_false, Bool.false_and]

theorem alike_of_holdsStatements {old new : Node} (htag : new.tag = old.tag)
    (hvalue : new.value = old.value) (hqualifiers : new.qualifiers = old.qualifiers)
    (hholds : new.tag.holdsStatements = true) (hgrammar : new.fitsGrammar = true) :
    old.Alike new where
  tag := htag
  qualifiers := hqualifiers
  precedence := by rw [Precedence.ofNode, htag, hvalue, Precedence.ofNode]
  void h := hvalue ▸ h
  voidOnly h := by
    rw [isVoidOnly_of_holdsStatements hholds hgrammar] at h
    cases h

/-- A node whose children pass the checks again is nearly what it was. -/
theorem nearly_of_over {R : Node → Node → Prop}
    (hR : ∀ a b, R a b → a.Alike b ∧ b.Every (Checked strict)) {old new : Node}
    (h : old.Every (Checked strict)) (hover : old.Over R new) :
    old.Alike new ∧ new.Nearly strict ∧ (strict = true → new.isUnambiguous = true) := by
  have hslots : List.Forall₂ (Slot.Related Alike) old.slots new.slots :=
    hover.slots.imp fun _ _ hslot => hslot.imp fun a b hrelated => (hR a b hrelated).1
  obtain ⟨hgrammar, hunambiguous, -⟩ := h.root
  have hvalue := (fitsGrammar_iff.mp hgrammar).2.2.1
  have hprecedence : Precedence.ofNode new = Precedence.ofNode old := by
    rw [Precedence.ofNode, hover.tag, hover.value, Precedence.ofNode]
  refine ⟨alike_of_slots hover.tag hover.qualifiers hprecedence (fun h => hover.value ▸ h)
    (fun h => hover.value ▸ h) hslots, ⟨?_, fun child hchild => ?_⟩,
    fun hstrict => isUnambiguous_of_alike (hunambiguous hstrict) hover.tag hslots⟩
  · refine fitsGrammar_of_alike hgrammar hover.tag hover.qualifiers ?_ hslots
    rw [hover.tag, hover.value]
    exact hvalue
  · obtain ⟨child', -, hrelated⟩ := exists_of_forall₂ (List.Forall₂.flip hover.children) hchild
    exact (hR _ _ hrelated).2

theorem list_withSlot {node : Node} {i : Nat} (hi : i < node.slots.length) (nodes : List Node) :
    (node.withSlot i (.many nodes)).list i = nodes := by
  rw [list, withSlot, withSlots, Slot.listAt, List.getElem?_set_self hi]

theorem lt_length_of_layout {node : Node} (hgrammar : node.fitsGrammar = true) {i : Nat}
    {kind : SlotKind} (hkind : node.tag.layout[i]? = some kind) : i < node.slots.length := by
  rw [Slot.length_of_fitAll (fitsGrammar_iff.mp hgrammar).1]
  exact (List.getElem?_eq_some_iff.mp hkind).1

theorem topLevel_of_over {R : Node → Node → Prop} (hR : ∀ a b, R a b → a.Alike b)
    {old new : Node} (hover : old.Over R new) :
    ∀ node ∈ new.list 0, ∃ node' ∈ old.list 0,
      node.tag = node'.tag ∧ node.qualifiers = node'.qualifiers := by
  intro node hnode
  obtain ⟨node', hnode', hrelated⟩ :=
    exists_of_forall₂ (List.Forall₂.flip (list_of_related hover.slots 0)) hnode
  exact ⟨node', hnode', (hR _ _ hrelated).tag, (hR _ _ hrelated).qualifiers⟩

end Node

end GlslShrink
