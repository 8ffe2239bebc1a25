import GlslShrink.Printing.Render
import GlslShrink.Proofs.Pass.TrimmedBraces
import GlslShrink.Proofs.Traversal.Layouts

/-!
Removing braces reaches a normal form in one pass. The normal form is said without the pass: no
body, arm or nested block has braces that change nothing, and no `else` is left to an inner `if`
(`NormalForm`). It holds of a node exactly if there is nothing to trim (`normalForm_iff_trimless`),
so the pass leaves every tree in it. The result matches the layouts again, as what stands in a place
is replaced by something of the same kind (`wellShaped`), and on a tree in normal form the pass does
nothing at all (`reduce_idle`).
-/

set_option autoImplicit false

namespace GlslShrink.Braces

open Node

variable {node statement inner other : Node}

/-! ### The normal form -/

/-- The statement is a block that is empty or holds one statement only, which is neither a
declaration nor a directive. -/
def IsNeedless (statement : Node) : Prop :=
  statement.tag = .scope ∧
    (statement.list 0 = [] ∨ ∃ single, statement.list 0 = [single] ∧
      single.tag ≠ .declaration ∧ single.tag ≠ .directive)

/-- The node has no braces around its statements that change nothing, and has those that keep an
`else` with its own `if`. -/
structure NormalForm (node : Node) : Prop where
  body : node.tag = .forLoop ∨ node.tag = .whileLoop ∨ node.tag = .doWhileLoop →
    ∀ statement, node.child? (bodyPlace node.tag) = some statement → ¬IsNeedless statement
  closed : node.tag = .ifStatement → (node.child? 2).isSome = true →
    ∀ statement, node.child? 1 = some statement → endsWithOpenIf statement = false
  thenArm : node.tag = .ifStatement →
    ∀ statement, node.child? 1 = some statement → IsNeedless statement →
      (node.child? 2).isSome = true ∧
        ∃ single, statement.list 0 = [single] ∧ endsWithOpenIf single = true
  elseArm : node.tag = .ifStatement →
    ∀ statement, node.child? 2 = some statement → ¬IsNeedless statement
  block : node.tag = .scope → ∀ inner ∈ node.list 0, inner.tag = .scope →
    ∃ declaration ∈ inner.list 0, declaration.tag = .declaration

theorem needsBlock_eq_false_iff :
    needsBlock node = false ↔ node.tag ≠ .declaration ∧ node.tag ≠ .directive := by
  simp [needsBlock]

theorem unwrapped?_eq_none_iff : unwrapped? statement = none ↔ ¬IsNeedless statement := by
  constructor
  · rintro hnone ⟨htag, hempty | ⟨single, hlist, hsingle⟩⟩
    · simp only [unwrapped?, if_pos htag, hempty] at hnone
      cases hnone
    · simp only [unwrapped?, if_pos htag, hlist, needsBlock_eq_false_iff.mpr hsingle] at hnone
      cases hnone
  · intro hneeded
    cases hinner : unwrapped? statement with
    | none => rfl
    | some inner =>
      refine absurd ?_ hneeded
      obtain ⟨htag, ⟨hempty, -⟩ | hlist⟩ := unwrapped?_cases hinner
      · exact ⟨htag, Or.inl hempty⟩
      · refine ⟨htag, Or.inr ⟨inner, hlist, needsBlock_eq_false_iff.mp ?_⟩⟩
        cases hneeds : needsBlock inner with
        | false => rfl
        | true =>
          simp only [unwrapped?, if_pos htag, hlist, hneeds] at hinner
          cases hinner

theorem trim_eq_none_iff : (trim statement).replacement = none ↔ ¬IsNeedless statement := by
  rw [← unwrapped?_eq_none_iff, trim]
  cases unwrapped? statement <;> simp

/-- Before an `else` a statement stays if it is closed and has no braces but those that close it. -/
theorem trimBeforeElse_eq_none_iff :
    (trimBeforeElse statement).replacement = none ↔ endsWithOpenIf statement = false ∧
      (IsNeedless statement →
        ∃ single, statement.list 0 = [single] ∧ endsWithOpenIf single = true) := by
  constructor
  · intro hnone
    have hclosed := endsWithOpenIf_trimBeforeElse statement
    rw [hnone, Option.getD_none] at hclosed
    refine ⟨hclosed, fun hneedless => ?_⟩
    obtain ⟨inner, hinner⟩ : ∃ inner, unwrapped? statement = some inner :=
      Option.ne_none_iff_exists'.mp (mt unwrapped?_eq_none_iff.mp (not_not.mpr hneedless))
    have hopen : endsWithOpenIf inner = true := by
      by_contra hinnerClosed
      rw [trimBeforeElse, hinner, Option.getD_some, if_neg hinnerClosed, trim, hinner] at hnone
      cases hnone
    obtain ⟨-, ⟨-, rfl⟩ | hlist⟩ := unwrapped?_cases hinner
    · cases hopen
    · exact ⟨inner, hlist, hopen⟩
  · rintro ⟨hclosed, hkept⟩
    cases hinner : unwrapped? statement with
    | none =>
      rw [trimBeforeElse, hinner, Option.getD_none, if_neg (Bool.eq_false_iff.mp hclosed), trim,
        hinner]
    | some inner =>
      have hneedless : IsNeedless statement := by
        by_contra hneeded
        cases hinner.symm.trans (unwrapped?_eq_none_iff.mpr hneeded)
      obtain ⟨single, hlist, hopen⟩ := hkept hneedless
      obtain ⟨htag, ⟨hempty, -⟩ | hsame⟩ := unwrapped?_cases hinner
      · cases hlist.symm.trans hempty
      · cases hlist.symm.trans hsame
        rw [trimBeforeElse, hinner, Option.getD_some, if_pos hopen, if_pos htag]

/-- A node is in normal form exactly if there is nothing to trim. -/
theorem normalForm_iff_trimless : NormalForm node ↔ Trimless node := by
  have hblock : (node.list 0).any dissolves = false ↔ ∀ inner ∈ node.list 0, inner.tag = .scope →
      ∃ declaration ∈ inner.list 0, declaration.tag = .declaration := by
    simp [dissolves]
  constructor
  · intro h
    refine ⟨fun hloop statement hchild => ?_, fun hif => ⟨fun statement hchild => ?_,
      fun statement hchild => ?_⟩, fun hscope => ?_⟩
    · exact trim_eq_none_iff.mpr (h.body hloop statement hchild)
    · cases helse : (node.child? 2).isSome with
      | true =>
        rw [if_pos rfl, trimBeforeElse_eq_none_iff]
        exact ⟨h.closed hif helse statement hchild,
          fun hneedless => (h.thenArm hif statement hchild hneedless).2⟩
      | false =>
        rw [if_neg Bool.false_ne_true, trim_eq_none_iff]
        intro hneedless
        have hsome := (h.thenArm hif statement hchild hneedless).1
        cases helse.symm.trans hsome
    · exact trim_eq_none_iff.mpr (h.elseArm hif statement hchild)
    · exact hblock.mpr (h.block hscope)
  · intro h
    have harm : node.tag = .ifStatement → (node.child? 2).isSome = true →
        ∀ statement, node.child? 1 = some statement → _ := fun hif helse statement hchild => by
      have hrests := (h.arms hif).1 statement hchild
      rw [helse, if_pos rfl] at hrests
      exact trimBeforeElse_eq_none_iff.mp hrests
    refine ⟨fun hloop statement hchild => ?_, fun hif helse statement hchild => ?_,
      fun hif statement hchild hneedless => ?_, fun hif statement hchild => ?_, fun hscope => ?_⟩
    · exact trim_eq_none_iff.mp (h.body hloop statement hchild)
    · exact (harm hif helse statement hchild).1
    · cases helse : (node.child? 2).isSome with
      | true => exact ⟨rfl, (harm hif helse statement hchild).2 hneedless⟩
      | false =>
        have hrests := (h.arms hif).1 statement hchild
        rw [helse, if_neg Bool.false_ne_true, trim_eq_none_iff] at hrests
        exact absurd hneedless hrests
    · exact trim_eq_none_iff.mp ((h.arms hif).2 statement hchild)
    · exact hblock.mp (h.block hscope)

/-! ### Layouts -/

section Layouts

variable {current new : Node}

theorem isWellShaped_unwrapped (h : statement.IsWellShaped)
    (hinner : unwrapped? statement = some inner) : inner.IsWellShaped := by
  obtain ⟨-, ⟨-, rfl⟩ | hlist⟩ := unwrapped?_cases hinner
  · exact every_iff.mpr ⟨rfl, fun _ hchild => by cases hchild⟩
  · apply h.child
    apply mem_children_of_mem_list (i := 0)
    rw [hlist]
    exact List.mem_singleton.mpr rfl

theorem isWellShaped_trim (h : statement.IsWellShaped)
    (hother : (trim statement).replacement = some other) : other.IsWellShaped := by
  cases hinner : unwrapped? statement with
  | none =>
    rw [trim, hinner] at hother
    cases hother
  | some inner =>
    rw [trim, hinner] at hother
    cases hother
    exact isWellShaped_unwrapped h hinner

theorem isWellShaped_trimBeforeElse (h : statement.IsWellShaped)
    (hother : (trimBeforeElse statement).replacement = some other) : other.IsWellShaped := by
  unfold trimBeforeElse at hother
  split at hother
  · split at hother
    · cases hother
    · cases hother
      refine every_iff.mpr ⟨rfl, fun child hchild => ?_⟩
      rwa [List.mem_singleton.mp (show child ∈ [statement] from hchild)]
  · exact isWellShaped_trim h hother

theorem Trimmed.isWellShaped {how : Node → Trim} {i : Nat} (h : Trimmed how current i new)
    (hhow : ∀ {statement other}, statement.IsWellShaped →
      (how statement).replacement = some other → other.IsWellShaped)
    (hcurrent : current.IsWellShaped) : new.IsWellShaped := by
  cases h with
  | kept => exact hcurrent
  | @replaced statement other hchild hother =>
    have hshaped := hhow (hcurrent.child (mem_children_of_child? hchild)) hother
    refine every_iff.mpr ⟨?_, fun child hmem => ?_⟩
    · apply Slot.fitAll_set_of_fits hcurrent.root (child?_eq_some.mp hchild)
      intro kind hkind
      cases kind <;> exact hkind
    · rcases mem_children_withSlot hmem with hmem | hmem
      · exact hcurrent.child hmem
      · rwa [List.mem_singleton.mp hmem]

theorem Spliced.isWellShaped (h : Spliced current new) (hcurrent : current.IsWellShaped) :
    new.IsWellShaped := by
  cases h with
  | kept => exact hcurrent
  | dissolved hsome =>
    obtain ⟨_, hmem, -⟩ := List.any_eq_true.mp hsome
    refine every_iff.mpr ⟨?_, fun child hchild => ?_⟩
    · apply Slot.fitAll_set_of_fits hcurrent.root (slots_of_list (List.ne_nil_of_mem hmem))
      intro kind hkind
      cases kind <;> exact hkind
    · rcases mem_children_withSlot hchild with hchild | hchild
      · exact hcurrent.child hchild
      · obtain ⟨statement, hstatement, hinside⟩ := List.mem_flatMap.mp hchild
        have hshaped := hcurrent.child (mem_children_of_mem_list hstatement)
        split at hinside
        · exact hshaped.child (mem_children_of_mem_list hinside)
        · rwa [List.mem_singleton.mp hinside]

theorem isWellShaped_of_edited {tag : Tag} (h : Edited tag current new)
    (hcurrent : current.IsWellShaped) : new.IsWellShaped := by
  cases h with
  | body _ htrimmed => exact htrimmed.isWellShaped isWellShaped_trim hcurrent
  | arms _ hfirst hsecond =>
    refine hsecond.isWellShaped isWellShaped_trim (hfirst.isWellShaped ?_ hcurrent)
    intro statement other hstatement hother
    split at hother
    · exact isWellShaped_trimBeforeElse hstatement hother
    · exact isWellShaped_trim hstatement hother
  | block _ hspliced => exact hspliced.isWellShaped hcurrent
  | same _ _ _ hsame => rwa [hsame]

theorem isWellShaped_of_over (hnode : node.fitsLayout = true)
    (hover : node.Over (fun _ new => new.IsWellShaped) current) : current.IsWellShaped := by
  refine every_iff.mpr ⟨?_, fun child hchild => ?_⟩
  · rw [fitsLayout, hover.tag, Slot.fitAll_of_related hover.slots]
    exact hnode
  · obtain ⟨_, -, hshaped⟩ := exists_of_forall₂ (List.Forall₂.flip hover.children) hchild
    exact hshaped

theorem wellShaped : editor.Law (fun node => node.fitsLayout = true) (fun (_ : Unit) _ => ())
    (fun _ _ => True) (fun _ _ => True) (fun _ _ _ new => new.IsWellShaped) := by
  refine .ofLocal (fun h => h) (fun _ => rfl) (fun _ => rfl)
    fun {node _ _ _ change} hnode hdescend hover => ?_
  obtain ⟨change', count, hrun, hedited⟩ := editing_run node hdescend
  exact ⟨change', count, hrun,
    isWellShaped_of_edited hedited (isWellShaped_of_over hnode.root hover)⟩

end Layouts

/-! ### Nothing to do -/

theorem trim_removed (h : (trim statement).replacement = none) : (trim statement).removed = 0 := by
  unfold trim at h ⊢
  split at h
  · cases h
  · rfl

theorem trimBeforeElse_removed (h : (trimBeforeElse statement).replacement = none) :
    (trimBeforeElse statement).removed = 0 := by
  rw [trimBeforeElse] at h ⊢
  by_cases hopen : endsWithOpenIf ((unwrapped? statement).getD statement) = true
  · rw [if_pos hopen]
    split <;> rfl
  · rw [if_neg hopen] at h ⊢
    exact trim_removed h

theorem trimChild_idle {how : Node → Trim} {i : Nat} (hrests : Rests how node i)
    (hremoved : ∀ {statement}, (how statement).replacement = none → (how statement).removed = 0)
    (count : Nat) : trimChild how node i .unchanged count = (.ok .unchanged, count) := by
  have hsame : Change.unchanged.result node = node := rfl
  cases hchild : node.child? i with
  | none => exact trimChild_of_none (hsame ▸ hchild) count
  | some statement =>
    have hnone := hrests statement hchild
    rw [trimChild_eq (hsame ▸ hchild), hnone, hremoved hnone]
    rfl

/-- Where there is nothing to trim at a node and nothing happened below it, nothing happens. -/
theorem editing_idle {descend : Walk Nat Change} {count : Nat} (h : Trimless node)
    (hdescend : descend count = (.ok .unchanged, count)) :
    editor.editing node descend count = (.ok (some .unchanged), count) := by
  by_cases hloop : node.tag = .forLoop ∨ node.tag = .whileLoop ∨ node.tag = .doWhileLoop
  · rw [editing_loop descend hloop, run_bind hdescend,
      run_bind (trimChild_idle (h.body hloop) trim_removed count)]
    rfl
  by_cases hif : node.tag = .ifStatement
  · have hremoved : ∀ {statement}, ((if (node.child? 2).isSome then trimBeforeElse else trim)
        statement).replacement = none →
          ((if (node.child? 2).isSome then trimBeforeElse else trim) statement).removed = 0 := by
      split
      · exact trimBeforeElse_removed
      · exact trim_removed
    have hbranches : trimBranches node .unchanged count = (.ok .unchanged, count) := by
      rw [trimBranches]
      exact (run_bind (trimChild_idle (h.arms hif).1 hremoved count)).trans
        (trimChild_idle (h.arms hif).2 trim_removed count)
    rw [editing_if descend hif, run_bind hdescend, run_bind hbranches]
    rfl
  by_cases hscope : node.tag = .scope
  · have hsplice : splice node .unchanged count = (.ok .unchanged, count) := by
      simp only [splice, Change.result, h.block hscope]
      rfl
    rw [editing_scope descend hscope, run_bind hdescend, run_bind hsplice]
    rfl
  · rw [editing_other descend hloop hif hscope, run_bind hdescend]
    rfl

/-- A tree in normal form is returned as the very same one, with no braces counted. -/
theorem reduce_idle {root : Node} (hshaped : root.IsWellShaped) (h : root.Every NormalForm) :
    reduce root = .ok (.unchanged, 0) := by
  have hidle : editor.Idle root := by
    refine Editor.idle_of_local (fun h => h.1) (fun _ => rfl) (fun _ => rfl) ?_ (hshaped.and h)
    intro node descend count hnode hdescend
    exact editing_idle (normalForm_iff_trimless.mp hnode.2) hdescend
  exact hidle.apply 0

/-- Removing braces from any tree whose nodes match their layouts succeeds and reaches the normal
form. It keeps exactly the trees that were in it, so a second removal changes and counts nothing. -/
theorem reduce_normalForm {root : Node} (hshaped : root.IsWellShaped) :
    ∃ change count, reduce root = .ok (change, count) ∧
      (change.result root).IsWellShaped ∧ (change.result root).Every NormalForm ∧
      (change = .unchanged ↔ root.Every NormalForm) ∧
      reduce (change.result root) = .ok (.unchanged, 0) := by
  obtain ⟨change, count, hrun, -, -, hshaped'⟩ :=
    wellShaped.apply (k := ()) (s := 0) hshaped trivial
  have hnormal : (change.result root).Every NormalForm :=
    (reduces_of_reduce hshaped hrun).trimless.imp fun _ => normalForm_iff_trimless.mpr
  refine ⟨change, count, hrun, hshaped', hnormal, ⟨?_, fun hroot => ?_⟩,
    reduce_idle hshaped' hnormal⟩
  · rintro rfl
    exact hnormal
  · cases (reduce_idle hshaped hroot).symm.trans hrun
    rfl

/-- The tree of `{while(a){{}if(b)if(c);else{e;}}}` with the `else` at the outer `if`, which braces
have to say. -/
def danglingElse : Node :=
  .scope [.whileLoop (.identifier "a") (.scope [.scope [],
    .ifStatement (.identifier "b")
      (.ifStatement (.identifier "c") (.expressionStatement none) none)
      (some (.scope [.expressionStatement (some (.identifier "e"))]))])]

/-- Three pairs of braces go and the missing one is put in. -/
theorem reduce_normalForm_danglingElse :
    danglingElse.IsWellShaped ∧ ∃ change, reduce danglingElse = .ok (change, 3) ∧
      (change.result danglingElse).render "" = "{while(a)if(b){if(c);}else e;}" ∧
      (change.result danglingElse).IsWellShaped ∧ (change.result danglingElse).Every NormalForm ∧
      (change = .unchanged ↔ danglingElse.Every NormalForm) ∧
      reduce (change.result danglingElse) = .ok (.unchanged, 0) := by
  have hshaped : danglingElse.IsWellShaped := List.all_eq_true.mp rfl
  have hok : (reduce danglingElse).toOption.any (fun result => result.2 == 3 &&
      (result.1.result danglingElse).render "" == "{while(a)if(b){if(c);}else e;}") = true := by
    decide +kernel
  obtain ⟨result, hresult, hfacts⟩ := exists_ok_of_any hok
  rw [Bool.and_eq_true, beq_iff_eq, beq_iff_eq] at hfacts
  obtain ⟨change, count, hrun, hnormal⟩ := reduce_normalForm hshaped
  obtain rfl : result = (change, count) := Except.ok.inj (hresult.symm.trans hrun)
  obtain ⟨rfl, htext⟩ := hfacts
  exact ⟨hshaped, change, hrun, htext, hnormal⟩

end GlslShrink.Braces
