import GlslShrink.Proofs.Printing.Printable
import GlslShrink.Proofs.Traversal.Laws

/-!
What a node may become without its parent noticing. The checks of a node look at its own token and,
of its children, at little more than their categories (`Alike`). So a node whose children are
replaced by alike ones, and whose own token stays one that its category allows, still passes the
checks (`fitsGrammar_of_alike`, `isUnambiguous_of_alike`), apart from the one about `else`.
-/

set_option autoImplicit false

namespace GlslShrink

/-! ### Related places -/

namespace Slot

variable {α β : Type} {R : α → β → Prop} {slots : List (Slot α)} {slots' : List (Slot β)}

theorem Related.fits {slot : Slot α} {slot' : Slot β} (h : slot.Related R slot')
    (kind : SlotKind) : slot'.fits kind = slot.fits kind := by
  cases h <;> cases kind <;> rfl

theorem fitAll_of_related (h : List.Forall₂ (Slot.Related R) slots slots')
    (kinds : List SlotKind) : fitAll slots' kinds = fitAll slots kinds := by
  induction h generalizing kinds with
  | nil => cases kinds <;> rfl
  | cons hfirst _ ih =>
    cases kinds with
    | nil => rfl
    | cons kind kinds => rw [fitAll, fitAll, hfirst.fits, ih]

theorem getElem?_of_related (h : List.Forall₂ (Slot.Related R) slots slots') (i : Nat) :
    Option.Rel (Slot.Related R) slots[i]? slots'[i]? := by
  induction h generalizing i with
  | nil => exact .none
  | cons hfirst _ ih =>
    cases i with
    | zero => exact .some hfirst
    | succ i => exact ih i

theorem childAt_of_related (h : List.Forall₂ (Slot.Related R) slots slots') (i : Nat) :
    Option.Rel R (childAt slots i) (childAt slots' i) := by
  have hslot := getElem?_of_related h i
  unfold childAt
  generalize slots[i]? = slot at hslot ⊢
  generalize slots'[i]? = slot' at hslot ⊢
  cases hslot with
  | none => exact .none
  | some hrelated =>
    cases hrelated with
    | absent => exact .none
    | one hchild => exact .some hchild
    | many _ => exact .none

theorem listAt_of_related (h : List.Forall₂ (Slot.Related R) slots slots') (i : Nat) :
    List.Forall₂ R (listAt slots i) (listAt slots' i) := by
  have hslot := getElem?_of_related h i
  unfold listAt
  generalize slots[i]? = slot at hslot ⊢
  generalize slots'[i]? = slot' at hslot ⊢
  cases hslot with
  | none => exact .nil
  | some hrelated =>
    cases hrelated with
    | absent => exact .nil
    | one _ => exact .nil
    | many hchildren => exact hchildren

end Slot

namespace Node

/-- The second node looks to its parent like the first one. -/
structure Alike (old new : Node) : Prop where
  tag : new.tag = old.tag
  qualifiers : new.qualifiers = old.qualifiers
  precedence : Precedence.ofNode new = Precedence.ofNode old
  void : new.value = "void" → old.value = "void"
  voidOnly : isVoidOnly [new] = true → isVoidOnly [old] = true

theorem Alike.trans {a b c : Node} (hab : a.Alike b) (hbc : b.Alike c) : a.Alike c where
  tag := hbc.tag.trans hab.tag
  qualifiers := hbc.qualifiers.trans hab.qualifiers
  precedence := hbc.precedence.trans hab.precedence
  void h := hab.void (hbc.void h)
  voidOnly h := hab.voidOnly (hbc.voidOnly h)

section Children

variable {R : Node → Node → Prop}

theorem all_of_forall₂ {p : Node → Bool} {nodes nodes' : List Node}
    (h : List.Forall₂ R nodes nodes') (hp : ∀ a b, R a b → p b = p a) :
    nodes'.all p = nodes.all p := by
  induction h with
  | nil => rfl
  | cons hfirst _ ih => rw [List.all_cons, List.all_cons, hp _ _ hfirst, ih]

theorem isEmpty_of_forall₂ {nodes nodes' : List Node} (h : List.Forall₂ R nodes nodes') :
    nodes'.isEmpty = nodes.isEmpty := by
  cases h <;> rfl

theorem any_of_rel {p : Node → Bool} {child child' : Option Node}
    (h : Option.Rel R child child') (hp : ∀ a b, R a b → p b = p a) :
    child'.any p = child.any p := by
  cases h with
  | none => rfl
  | some hrelated => exact hp _ _ hrelated

theorem all_of_rel {p : Node → Bool} {child child' : Option Node}
    (h : Option.Rel R child child') (hp : ∀ a b, R a b → p b = p a) :
    child'.all p = child.all p := by
  cases h with
  | none => rfl
  | some hrelated => exact hp _ _ hrelated

theorem isNone_of_rel {child child' : Option Node} (h : Option.Rel R child child') :
    child'.isNone = child.isNone := by
  cases h <;> rfl

end Children

theorem fitPlaces_of_alike {slots slots' : List (Slot Node)}
    (h : List.Forall₂ (Slot.Related Alike) slots slots') (places : List (Tag → Bool)) :
    fitPlaces slots' places = fitPlaces slots places := by
  induction h generalizing places with
  | nil => cases places <;> rfl
  | cons hfirst _ ih =>
    cases places with
    | nil => rfl
    | cons allowed places =>
      rw [fitPlaces, fitPlaces, ih,
        all_of_forall₂ hfirst.toList fun _ _ halike => by rw [halike.tag]]

theorem isVoidOnly_of_alike {parameters parameters' : List Node}
    (h : List.Forall₂ Alike parameters parameters') (hvoid : isVoidOnly parameters' = true) :
    isVoidOnly parameters = true := by
  cases h with
  | nil => exact hvoid
  | cons hfirst hrest =>
    cases hrest with
    | nil => exact hfirst.voidOnly hvoid
    | cons _ _ => cases hvoid

theorem isVoidArgument_of_alike {arguments arguments' : List Node}
    (h : List.Forall₂ Alike arguments arguments') (hvoid : isVoidArgument arguments' = true) :
    isVoidArgument arguments = true := by
  cases h with
  | nil => exact hvoid
  | cons hfirst hrest =>
    cases hrest with
    | nil =>
      simp only [isVoidArgument, Bool.and_eq_true, beq_iff_eq] at hvoid ⊢
      exact ⟨hfirst.tag ▸ hvoid.1, hfirst.void hvoid.2⟩
    | cons _ _ => cases hvoid

/-! ### Checks of a node with other children -/

section Transfer

variable {old new : Node}

theorem child?_of_related {R : Node → Node → Prop}
    (hslots : List.Forall₂ (Slot.Related R) old.slots new.slots) (i : Nat) :
    Option.Rel R (old.child? i) (new.child? i) :=
  Slot.childAt_of_related hslots i

theorem list_of_related {R : Node → Node → Prop}
    (hslots : List.Forall₂ (Slot.Related R) old.slots new.slots) (i : Nat) :
    List.Forall₂ R (old.list i) (new.list i) :=
  Slot.listAt_of_related hslots i

theorem isComplete_of_alike (h : old.isComplete = true) (htag : new.tag = old.tag)
    (hslots : List.Forall₂ (Slot.Related Alike) old.slots new.slots) : new.isComplete = true := by
  have hvoid : ∀ {i}, isVoidOnly (old.list i) = false → isVoidOnly (new.list i) = false := by
    intro i hold
    refine Bool.eq_false_iff.mpr fun hnew => ?_
    rw [isVoidOnly_of_alike (list_of_related hslots i) hnew] at hold
    cases hold
  unfold isComplete at h ⊢
  rw [htag]
  split
  · simp only [‹old.tag = _›] at h
    rw [isEmpty_of_forall₂ (list_of_related hslots 1),
      any_of_rel (child?_of_related hslots 0) fun _ _ halike => by rw [halike.tag]]
    exact h
  · simp only [‹old.tag = _›] at h
    rw [isEmpty_of_forall₂ (list_of_related hslots 0)]
    exact h
  · simp only [‹old.tag = _›, Bool.not_eq_true'] at h ⊢
    exact hvoid h
  · simp only [‹old.tag = _›, Bool.not_eq_true'] at h ⊢
    exact hvoid h
  · simp only [‹old.tag = _›] at h
    rw [all_of_rel (child?_of_related hslots 0) fun _ _ halike => by rw [halike.precedence]]
    exact h
  · rfl

theorem fitsGrammar_of_alike (h : old.fitsGrammar = true) (htag : new.tag = old.tag)
    (hqualifiers : new.qualifiers = old.qualifiers)
    (hvalue : new.tag.allowsValue new.value = true)
    (hslots : List.Forall₂ (Slot.Related Alike) old.slots new.slots) : new.fitsGrammar = true := by
  obtain ⟨hlayout, hplaces, -, hallowed, hcomplete⟩ := fitsGrammar_iff.mp h
  refine fitsGrammar_iff.mpr ⟨?_, ?_, hvalue, ?_, isComplete_of_alike hcomplete htag hslots⟩
  · rw [fitsLayout, Slot.fitAll_of_related hslots, htag]
    exact hlayout
  · rw [fitPlaces_of_alike hslots, htag]
    exact hplaces
  · rw [htag, hqualifiers]
    exact hallowed

theorem isUnambiguous_of_alike (h : old.isUnambiguous = true) (htag : new.tag = old.tag)
    (hslots : List.Forall₂ (Slot.Related Alike) old.slots new.slots) :
    new.isUnambiguous = true := by
  unfold isUnambiguous at h ⊢
  rw [htag]
  split
  · simp only [‹old.tag = _›] at h
    rw [all_of_rel (child?_of_related hslots 0) fun _ _ halike => by rw [halike.tag]]
    exact h
  · simp only [‹old.tag = _›] at h
    rw [all_of_rel (child?_of_related hslots 0) fun _ _ halike => by rw [halike.precedence]]
    exact h
  · simp only [‹old.tag = _›] at h
    rw [all_of_rel (child?_of_related hslots 1) fun _ _ halike => by rw [halike.precedence]]
    exact h
  · simp only [‹old.tag = _›, Bool.not_eq_true'] at h ⊢
    refine Bool.eq_false_iff.mpr fun hnew => ?_
    rw [isVoidArgument_of_alike (list_of_related hslots 0) hnew] at h
    cases h
  · rfl

/-- A node is alike to one with alike children and, at most, another name. -/
theorem alike_of_slots (htag : new.tag = old.tag) (hqualifiers : new.qualifiers = old.qualifiers)
    (hprecedence : Precedence.ofNode new = Precedence.ofNode old)
    (hvoid : new.value = "void" → old.value = "void") (hempty : new.value = "" → old.value = "")
    (hslots : List.Forall₂ (Slot.Related Alike) old.slots new.slots) : old.Alike new := by
  refine ⟨htag, hqualifiers, hprecedence, hvoid, fun hnew => ?_⟩
  have htype := child?_of_related hslots 0
  have hnone := isNone_of_rel (child?_of_related hslots 1)
  simp only [isVoidOnly, Bool.and_eq_true, beq_iff_eq, hqualifiers, hnone] at hnew ⊢
  refine ⟨⟨⟨hnew.1.1.1, hempty hnew.1.1.2⟩, ?_⟩, hnew.2⟩
  have hany := hnew.1.2
  generalize old.child? 0 = type at htype ⊢
  generalize new.child? 0 = type' at htype hany
  cases htype with
  | none => cases hany
  | some halike =>
    simp only [Option.any_some, Bool.and_eq_true, beq_iff_eq] at hany ⊢
    exact ⟨halike.tag ▸ hany.1, halike.void hany.2⟩

end Transfer

/-! ### Nodes that keep their `else` -/

/-- The second node looks like the first one, also to an `else` behind it. -/
structure Steady (old new : Node) : Prop extends Alike old new where
  openIf : Braces.endsWithOpenIf new = Braces.endsWithOpenIf old

section Steady

variable {old new : Node}

theorem map_openIf_of_rel {child child' : Option Node} (h : Option.Rel Steady child child') :
    child'.map Braces.endsWithOpenIf = child.map Braces.endsWithOpenIf := by
  cases h with
  | none => rfl
  | some hsteady => exact congrArg some hsteady.openIf

theorem endsWithOpenIf_of_steady (htag : new.tag = old.tag)
    (hslots : List.Forall₂ (Slot.Related Steady) old.slots new.slots) :
    Braces.endsWithOpenIf new = Braces.endsWithOpenIf old := by
  rw [Braces.endsWithOpenIf_eq new, Braces.endsWithOpenIf_eq old, htag,
    map_openIf_of_rel (child?_of_related hslots 1), map_openIf_of_rel (child?_of_related hslots 2),
    map_openIf_of_rel (child?_of_related hslots 3)]

theorem keepsElse_of_steady (h : old.keepsElse = true) (htag : new.tag = old.tag)
    (hslots : List.Forall₂ (Slot.Related Steady) old.slots new.slots) : new.keepsElse = true := by
  rw [keepsElse, htag, isNone_of_rel (child?_of_related hslots 2),
    any_of_rel (child?_of_related hslots 1) fun _ _ hsteady => hsteady.openIf]
  exact h

theorem alike_of_steady {slots slots' : List (Slot Node)}
    (h : List.Forall₂ (Slot.Related Steady) slots slots') :
    List.Forall₂ (Slot.Related Alike) slots slots' :=
  h.imp fun _ _ hslot => hslot.imp fun _ _ hsteady => hsteady.toAlike

/-- A node with steady children and a token that its category allows passes the checks. -/
theorem checked_of_steady {strict : Bool} (h : old.Checked strict) (htag : new.tag = old.tag)
    (hqualifiers : new.qualifiers = old.qualifiers)
    (hvalue : new.tag.allowsValue new.value = true)
    (hslots : List.Forall₂ (Slot.Related Steady) old.slots new.slots) : new.Checked strict :=
  ⟨fitsGrammar_of_alike h.1 htag hqualifiers hvalue (alike_of_steady hslots),
    fun hstrict => isUnambiguous_of_alike (h.2.1 hstrict) htag (alike_of_steady hslots),
    keepsElse_of_steady h.2.2 htag hslots⟩

end Steady

/-! ### Passes -/

variable {strict : Bool}

theorem checked_bare (node : Node) : node.bare.Checked strict ↔ node.Checked strict := by
  rw [Checked, Checked, fitsGrammar_bare, isUnambiguous_bare, keepsElse_bare]

/-- The second shader passes the checks, and what stands at its top is qualified like something at
the top of the first one. -/
structure Stays (strict : Bool) (old new : Node) : Prop where
  tag : new.tag = old.tag
  checked : new.Every (Checked strict)
  topLevel : ∀ node ∈ new.list 0, ∃ node' ∈ old.list 0,
    node.tag = node'.tag ∧ node.qualifiers = node'.qualifiers

/-- The second shader passes all checks, and what stands at its top is qualified like something at
the top of the first one. -/
structure StaysPrintable (old new : Node) : Prop where
  tag : new.tag = old.tag
  fits : new.Every Fits
  topLevel : ∀ node ∈ new.list 0, ∃ node' ∈ old.list 0,
    node.tag = node'.tag ∧ node.qualifiers = node'.qualifiers

theorem Stays.printable {old new : Node} (h : old.Stays true new) : old.StaysPrintable new :=
  ⟨h.tag, h.checked.imp fun _ => checked_true_iff.mp, h.topLevel⟩

theorem Stays.of_bare {old new new' : Node} (h : old.Stays strict new)
    (hbare : new'.bare = new.bare) : old.Stays strict new' where
  tag := by rw [← bare_tag new', hbare, bare_tag, h.tag]
  checked := by
    rw [← every_bare checked_bare, hbare, every_bare checked_bare]
    exact h.checked
  topLevel node hnode := by
    have hmem : node.bare ∈ new.bare.list 0 := by
      rw [← hbare, list_bare]
      exact List.mem_map_of_mem hnode
    rw [list_bare] at hmem
    obtain ⟨twin, htwin, heq⟩ := List.mem_map.mp hmem
    obtain ⟨node', hnode', htag, hqualifiers⟩ := h.topLevel twin htwin
    refine ⟨node', hnode', ?_, ?_⟩
    · rw [← bare_tag node, ← heq, bare_tag, htag]
    · rw [← bare_qualifiers node, ← heq, bare_qualifiers, hqualifiers]

section Pass

variable {α : Type} {pass : Node → Except Fault (Change × α)}

/-- The pass succeeds on every shader that passes the checks and keeps it so. -/
def Runs (strict : Bool) (pass : Node → Except Fault (Change × α)) : Prop :=
  ∀ root : Node, root.tag = .shader → root.Every (Checked strict) → ∃ change a,
    pass root = .ok (change, a) ∧ root.Stays strict (change.result root)

/-- What the pass makes of a printable shader is printable. -/
def KeepsPrintable (pass : Node → Except Fault (Change × α)) : Prop :=
  ∀ {root change a}, root.tag = .shader → root.Every Fits → pass root = .ok (change, a) →
    root.StaysPrintable (change.result root)

theorem Runs.keepsPrintable (h : Runs true pass) : KeepsPrintable pass := by
  intro root change a htag hroot hpass
  obtain ⟨change', a', hrun, hstays⟩ := h root htag (hroot.imp fun _ => checked_true_iff.mpr)
  cases hrun.symm.trans hpass
  exact hstays.printable

end Pass

end Node

end GlslShrink
