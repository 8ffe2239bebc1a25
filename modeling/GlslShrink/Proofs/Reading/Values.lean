import GlslShrink.Proofs.Reading.Recursion

/-!
What the values of a reader have in common. `Yields p Q` says that every value that `p` reads has
the property `Q`, whatever the text; `Leaves p R` also looks at the text that is left. There is one
rule for each way of building readers; for a recursive family it is enough that a round keeps the
properties.
-/

set_option autoImplicit false

namespace GlslShrink.Reader

variable {α β : Type} {P Q : α → Prop}

/-- Every value that the reader reads is related so to the text that is left. -/
def Leaves (p : Reader α) (R : α → List Char → Prop) : Prop :=
  ∀ text a rest, p text = .read a rest → R a rest

/-- Every value that the reader reads has the property. -/
def Yields (p : Reader α) (Q : α → Prop) : Prop :=
  p.Leaves fun a _ => Q a

theorem Yields.imp {p : Reader α} (h : p.Yields P) (himp : ∀ a, P a → Q a) : p.Yields Q :=
  fun text a rest hread => himp a (h text a rest hread)

theorem yields_any (p : Reader α) : p.Yields (fun _ => True) :=
  fun _ _ _ _ => trivial

theorem yields_pure {a : α} (h : Q a) : (pure a : Reader α).Yields Q := by
  intro text b rest hread
  cases hread
  exact h

theorem yields_refuse : (refuse : Reader α).Yields Q := by
  intro text a rest hread
  cases hread

theorem Leaves.orElse {R : α → List Char → Prop} {p q : Reader α} (hp : p.Leaves R)
    (hq : q.Leaves R) : (p <|> q).Leaves R := by
  intro text a rest hread
  rcases orElse_inv hread with hread | ⟨-, hread⟩
  · exact hp text a rest hread
  · exact hq text a rest hread

theorem Yields.bind {R : β → Prop} {p : Reader α} {f : α → Reader β} (hp : p.Yields P)
    (hf : ∀ a, P a → (f a).Yields R) : (p >>= f).Yields R := by
  intro text b rest hread
  obtain ⟨a, next, hfirst, hsecond⟩ := bind_inv hread
  exact hf a (hp text a next hfirst) next b rest hsecond

theorem Yields.orElse {p q : Reader α} (hp : p.Yields Q) (hq : q.Yields Q) : (p <|> q).Yields Q :=
  Leaves.orElse hp hq

theorem Yields.branch {R : β → Prop} {p : Reader α} {f : α → Reader β} {otherwise : Reader β}
    (hp : p.Yields P) (hf : ∀ a, P a → (f a).Yields R) (ho : otherwise.Yields R) :
    (p.branch f otherwise).Yields R := by
  intro text b rest hread
  rcases branch_inv hread with ⟨a, middle, hfirst, hsecond⟩ | ⟨-, hread⟩
  · exact hf a (hp text a middle hfirst) middle b rest hsecond
  · exact ho text b rest hread

theorem Yields.optional {p : Reader α} (hp : p.Yields Q) :
    p.optional.Yields (fun found => ∀ a ∈ found, Q a) := by
  refine hp.branch (fun a ha => yields_pure ?_) (yields_pure ?_)
  · rintro b ⟨⟩
    exact ha
  · rintro b ⟨⟩

theorem yields_guarded (p : Reader α) (test : α → Bool) :
    (p.guarded test).Yields (fun a => test a = true) :=
  fun _ _ _ hread => (guarded_inv hread).2

section Recursion

variable {ι : Type} {family : (ι → Reader α) → ι → Reader α}

/-- The readers of a family have the properties that a round of unfolding keeps. -/
theorem leaves_fix {R : ι → α → List Char → Prop}
    (h : ∀ p : ι → Reader α, (∀ j, (p j).Leaves (R j)) → ∀ i, (family p i).Leaves (R i)) (i : ι) :
    (fix family i).Leaves (R i) := by
  have hunfolding : ∀ depth j, (unfolding family depth j).Leaves (R j) := by
    intro depth
    induction depth with
    | zero => exact fun j text a rest hread => by cases hread
    | succ depth ih => exact h _ ih
  exact fun text => hunfolding (text.length + 1) i text

theorem yields_fix {R : ι → α → Prop}
    (h : ∀ p : ι → Reader α, (∀ j, (p j).Yields (R j)) → ∀ i, (family p i).Yields (R i)) (i : ι) :
    (fix family i).Yields (R i) :=
  leaves_fix (R := fun i a _ => R i a) h i

theorem Yields.many {p : Reader α} (hp : p.Yields Q) :
    (many p).Yields (fun values => ∀ a ∈ values, Q a) := by
  refine yields_fix (R := fun _ values => ∀ a ∈ values, Q a) (fun more hmore _ => ?_) ()
  refine hp.branch (fun a ha => ?_) (yields_pure (by simp))
  refine (hmore ()).bind fun others hothers => yields_pure ?_
  exact List.forall_mem_cons.mpr ⟨ha, hothers⟩

theorem Yields.many1 {p : Reader α} (hp : p.Yields Q) :
    (many1 p).Yields (fun values => values ≠ [] ∧ ∀ a ∈ values, Q a) := by
  refine hp.bind fun a ha => hp.many.bind fun others hothers => yields_pure ?_
  exact ⟨List.cons_ne_nil _ _, List.forall_mem_cons.mpr ⟨ha, hothers⟩⟩

theorem Yields.separated1 {p : Reader α} (separator : Reader β) (hp : p.Yields Q) :
    (separated1 separator p).Yields (fun values => values ≠ [] ∧ ∀ a ∈ values, Q a) := by
  refine hp.bind fun a ha => ?_
  have hitem : (do let _ ← separator; p).Yields Q := (yields_any separator).bind fun _ _ => hp
  refine hitem.many.bind fun others hothers => yields_pure ?_
  exact ⟨List.cons_ne_nil _ _, List.forall_mem_cons.mpr ⟨ha, hothers⟩⟩

theorem Yields.separated {p : Reader α} (separator : Reader β) (hp : p.Yields Q) :
    (separated separator p).Yields (fun values => ∀ a ∈ values, Q a) := by
  refine hp.branch (fun a ha => ?_) (yields_pure (by simp))
  have hitem : (do let _ ← separator; p).Yields Q := (yields_any separator).bind fun _ _ => hp
  refine hitem.many.bind fun others hothers => yields_pure ?_
  exact List.forall_mem_cons.mpr ⟨ha, hothers⟩

theorem Yields.manyUntil {p : Reader α} (close : Reader β) (hp : p.Yields Q) :
    (manyUntil p close).Yields (fun values => ∀ a ∈ values, Q a) := by
  refine yields_fix (R := fun _ values => ∀ a ∈ values, Q a) (fun more hmore _ => ?_) ()
  refine (yields_any close).branch (fun _ _ => yields_pure (by simp)) ?_
  refine hp.bind fun a ha => (hmore ()).bind fun others hothers => yields_pure ?_
  exact List.forall_mem_cons.mpr ⟨ha, hothers⟩

/-- A value that grows keeps what every step keeps. -/
theorem Yields.extend {step : α → Reader (Option α)}
    (hstep : ∀ a, Q a → (step a).Yields (fun found => ∀ b ∈ found, Q b)) {a : α} (ha : Q a) :
    (extend step a).Yields Q := by
  have hgrown : (Reader.extend step a).Yields (fun b => Q a → Q b) := by
    refine yields_fix (R := fun a b => Q a → Q b) (fun more hmore b => ?_) a
    intro text c rest hread hb
    obtain ⟨found, next, hfound, hread⟩ := bind_inv hread
    cases found with
    | none =>
      cases hread
      exact hb
    | some larger =>
      exact hmore larger next c rest hread (hstep b hb text _ next hfound larger rfl)
  exact hgrown.imp fun b hb => hb ha

end Recursion

end GlslShrink.Reader
