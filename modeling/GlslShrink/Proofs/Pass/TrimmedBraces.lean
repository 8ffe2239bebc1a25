import GlslShrink.Proofs.Pass.Braces
import GlslShrink.Proofs.Pass.NormalForms

/-!
What removing braces leaves alone. A tree without braces that could be taken off (`Trimless`) keeps
its shape; every tree is left without them, and with no more functions and declarations than it had
(`Reduces`). Names and values do not matter (`trimless_skeleton`), so that a tree is still without
such braces when it has been renamed.
-/

set_option autoImplicit false

namespace GlslShrink.Braces

open Node

/-- What stands in the place stays there. -/
def Rests (how : Node → Trim) (node : Node) (i : Nat) : Prop :=
  ∀ statement, node.child? i = some statement → (how statement).replacement = none

/-- No braces around the statements of the node can be removed, and none are missing. -/
structure Trimless (node : Node) : Prop where
  body : node.tag = .forLoop ∨ node.tag = .whileLoop ∨ node.tag = .doWhileLoop →
    Rests trim node (bodyPlace node.tag)
  arms : node.tag = .ifStatement →
    Rests (if (node.child? 2).isSome then trimBeforeElse else trim) node 1 ∧ Rests trim node 2
  block : node.tag = .scope → (node.list 0).any dissolves = false

/-- What replaces a trimmed statement is not replaced again. -/
def TrimsOnce (how : Node → Trim) : Prop :=
  ∀ {statement other}, statement.Every Trimless → (how statement).replacement = some other →
    (how other).replacement = none ∧ other.Every Trimless

variable {node statement inner : Node}

theorem trimless_of_plain
    (hloop : ¬(node.tag = .forLoop ∨ node.tag = .whileLoop ∨ node.tag = .doWhileLoop))
    (hif : node.tag ≠ .ifStatement) (hscope : node.tag ≠ .scope) : Trimless node :=
  ⟨fun h => absurd h hloop, fun h => absurd h hif, fun h => absurd h hscope⟩

theorem trimless_of_block (htag : node.tag = .scope)
    (hblock : (node.list 0).any dissolves = false) : Trimless node :=
  ⟨fun h => by simp [htag] at h, fun h => by simp [htag] at h, fun _ => hblock⟩

theorem unwrapped?_of_ne_scope (h : node.tag ≠ .scope) : unwrapped? node = none := by
  rw [unwrapped?, if_neg h]

/-- A block that has to stay among other statements has to stay by itself. -/
theorem unwrapped?_of_not_dissolves (h : dissolves node = false) : unwrapped? node = none := by
  by_cases htag : node.tag = .scope
  · simp only [dissolves, htag, beq_self_eq_true, Bool.true_and, Bool.not_eq_false'] at h
    rw [unwrapped?, if_pos htag]
    split
    · rename_i hlist
      rw [hlist] at h
      cases h
    · rename_i single hlist
      rw [hlist, List.any_cons, List.any_nil, Bool.or_false] at h
      rw [needsBlock, h, Bool.true_or, if_pos rfl]
    · rfl
  · exact unwrapped?_of_ne_scope htag

theorem trim_of_unwrapped? (h : unwrapped? node = none) : (trim node).replacement = none := by
  rw [trim, h]

theorem unwrapped_trimless (h : statement.Every Trimless)
    (hinner : unwrapped? statement = some inner) :
    dissolves inner = false ∧ inner.Every Trimless := by
  obtain ⟨htag, ⟨-, rfl⟩ | hlist⟩ := unwrapped?_cases hinner
  · exact ⟨rfl, every_iff.mpr ⟨trimless_of_plain (by decide) (by decide) (by decide), nofun⟩⟩
  · have hmem : inner ∈ statement.list 0 := by
      rw [hlist]
      exact List.mem_singleton.mpr rfl
    have hblock := List.any_eq_false.mp (h.root.block htag) inner hmem
    exact ⟨Bool.eq_false_iff.mpr hblock, h.child (mem_children_of_mem_list hmem)⟩

theorem trimsOnce_trim : TrimsOnce trim := by
  intro statement other hstatement hother
  unfold trim at hother
  split at hother
  · rename_i inner hinner
    cases hother
    obtain ⟨hstays, htrimless⟩ := unwrapped_trimless hstatement hinner
    exact ⟨trim_of_unwrapped? (unwrapped?_of_not_dissolves hstays), htrimless⟩
  · cases hother

theorem needsBlock_of_endsWithOpenIf (h : endsWithOpenIf node = true) :
    needsBlock node = false := by
  rw [endsWithOpenIf_eq] at h
  rw [needsBlock]
  split at h <;> simp_all

theorem trimsOnce_trimBeforeElse : TrimsOnce trimBeforeElse := by
  intro statement other hstatement hother
  unfold trimBeforeElse at hother
  split at hother
  · rename_i hopen
    split at hother
    · cases hother
    · rename_i htag
      cases hother
      rw [unwrapped?_of_ne_scope htag, Option.getD_none] at hopen
      have hunwrapped : unwrapped? (.scope [statement]) = some statement := by
        have hlist : (Node.scope [statement]).list 0 = [statement] := rfl
        simp only [unwrapped?, hlist, needsBlock_of_endsWithOpenIf hopen]
        rfl
      have hblock : ((Node.scope [statement]).list 0).any dissolves = false := by
        change (dissolves statement || false) = false
        rw [dissolves, beq_eq_false_iff_ne.mpr htag, Bool.false_and, Bool.false_or]
      refine ⟨?_, every_iff.mpr ⟨trimless_of_block rfl hblock, fun child hchild => ?_⟩⟩
      · rw [trimBeforeElse, hunwrapped, Option.getD_some, if_pos hopen]
        rfl
      · obtain rfl := List.mem_singleton.mp (show child ∈ [statement] from hchild)
        exact hstatement
  · rename_i hclosed
    obtain ⟨hrests, htrimless⟩ := trimsOnce_trim hstatement hother
    refine ⟨?_, htrimless⟩
    cases hinner : unwrapped? statement with
    | none =>
      rw [trim, hinner] at hother
      cases hother
    | some inner =>
      rw [trim, hinner] at hother
      cases hother
      rw [hinner, Option.getD_some] at hclosed
      have hstays := unwrapped?_of_not_dissolves (unwrapped_trimless hstatement hinner).1
      rw [trimBeforeElse, hstays, Option.getD_none, if_neg hclosed]
      exact hrests

section Edited

variable {how : Node → Trim} {old current new : Node} {i : Nat}

theorem Trimmed.rests (h : Trimmed how current i new) (honce : TrimsOnce how)
    (hbelow : ∀ child ∈ current.children, child.Every Trimless) :
    Rests how new i ∧ ∀ child ∈ new.children, child.Every Trimless := by
  have hself := h.child?_self
  cases h with
  | kept hkept => exact ⟨hkept, hbelow⟩
  | @replaced statement other hchild hother =>
    obtain ⟨hrests, htrimless⟩ := honce (hbelow _ (mem_children_of_child? hchild)) hother
    refine ⟨fun found hfound => ?_, fun child hmem => ?_⟩
    · rw [hself, hchild, Option.map_some, hother, Option.getD_some, Option.some.injEq] at hfound
      exact hfound ▸ hrests
    · rcases mem_children_withSlot hmem with hmem | hmem
      · exact hbelow child hmem
      · rwa [List.mem_singleton.mp hmem]

theorem Trimmed.eq_of_rests (h : Trimmed how current i new) (hrests : Rests how current i) :
    new = current := by
  cases h with
  | kept => rfl
  | replaced hchild hother => cases (hrests _ hchild).symm.trans hother

theorem Spliced.trimless (h : Spliced current new) (htag : current.tag = .scope)
    (hbelow : ∀ child ∈ current.children, child.Every Trimless) : new.Every Trimless := by
  cases h with
  | kept hkept => exact every_iff.mpr ⟨trimless_of_block htag hkept, hbelow⟩
  | dissolved hsome =>
    obtain ⟨_, hmem, -⟩ := List.any_eq_true.mp hsome
    have hlist := List.ne_nil_of_mem hmem
    have hlt := (List.getElem?_eq_some_iff.mp (slots_of_list hlist)).1
    have hmember : ∀ node ∈ spliced (current.list 0),
        dissolves node = false ∧ node.Every Trimless := by
      intro node hnode
      obtain ⟨statement, hstatement, hinside⟩ := List.mem_flatMap.mp hnode
      have htrimless := hbelow _ (mem_children_of_mem_list hstatement)
      split at hinside
      · rename_i hdissolves
        rw [dissolves, Bool.and_eq_true, beq_iff_eq] at hdissolves
        have hnone := List.any_eq_false.mp (htrimless.root.block hdissolves.1) node hinside
        exact ⟨Bool.eq_false_iff.mpr hnone, htrimless.child (mem_children_of_mem_list hinside)⟩
      · rename_i hstays
        obtain rfl := List.mem_singleton.mp hinside
        exact ⟨Bool.eq_false_iff.mpr hstays, htrimless⟩
    refine every_iff.mpr ⟨trimless_of_block htag ?_, fun child hchild => ?_⟩
    · rw [list_withSlot hlt, List.any_eq_false]
      exact fun node hnode => Bool.eq_false_iff.mp (hmember node hnode).1
    · rcases mem_children_withSlot hchild with hchild | hchild
      · exact hbelow child hchild
      · exact (hmember child hchild).2

/-- After an edit there is nothing left to trim. -/
theorem trimless_of_edited (h : Edited current.tag current new)
    (hbelow : ∀ child ∈ current.children, child.Every Trimless) : new.Every Trimless := by
  cases h with
  | body htag htrimmed =>
    obtain ⟨hrests, hbelow'⟩ := htrimmed.rests trimsOnce_trim hbelow
    refine every_iff.mpr ⟨⟨fun _ => htrimmed.tag ▸ hrests, fun h => ?_, fun h => ?_⟩, hbelow'⟩
    · rw [htrimmed.tag] at h
      simp [h] at htag
    · rw [htrimmed.tag] at h
      simp [h] at htag
  | @arms middle htag hfirst hsecond =>
    have honce : TrimsOnce (if (current.child? 2).isSome then trimBeforeElse else trim) := by
      split
      · exact trimsOnce_trimBeforeElse
      · exact trimsOnce_trim
    obtain ⟨hrests, hmiddle⟩ := hfirst.rests honce hbelow
    obtain ⟨hrests', hnew⟩ := hsecond.rests trimsOnce_trim hmiddle
    have hother : new.child? 1 = middle.child? 1 := hsecond.child?_of_ne (by decide)
    have helse : (new.child? 2).isSome = (current.child? 2).isSome := by
      rw [hsecond.child?_self, hfirst.child?_of_ne (by decide), Option.isSome_map]
    have htag' : new.tag = .ifStatement := (hsecond.tag.trans hfirst.tag).trans htag
    refine every_iff.mpr ⟨⟨fun h => by simp [htag'] at h, fun _ => ⟨?_, hrests'⟩,
      fun h => by simp [htag'] at h⟩, hnew⟩
    rw [helse]
    exact fun statement hchild => hrests statement (hother ▸ hchild)
  | block htag hspliced => exact hspliced.trimless htag hbelow
  | same hloop hif hscope hsame =>
    rw [hsame]
    exact every_iff.mpr ⟨trimless_of_plain hloop hif hscope, hbelow⟩

theorem eq_of_trimless (h : Edited current.tag current new) (htrimless : Trimless current) :
    new = current := by
  cases h with
  | body htag htrimmed => exact htrimmed.eq_of_rests (htrimless.body htag)
  | arms htag hfirst hsecond =>
    obtain ⟨hrests, hrests'⟩ := htrimless.arms htag
    obtain rfl := hfirst.eq_of_rests hrests
    exact hsecond.eq_of_rests hrests'
  | block htag hspliced =>
    cases hspliced with
    | kept => rfl
    | dissolved hsome => cases (htrimless.block htag).symm.trans hsome
  | same _ _ _ hsame => exact hsame

/-! ### Counting what is left -/

theorem tally_unwrapped (h : unwrapped? statement = some inner) :
    inner.tally Tag.declares ≤ statement.tally Tag.declares := by
  obtain ⟨-, ⟨-, rfl⟩ | hlist⟩ := unwrapped?_cases h
  · exact Nat.zero_le _
  · have hlist' := tallyAll_list_le Tag.declares statement 0
    rw [hlist, tallyAll_cons] at hlist'
    omega

theorem tally_trim {other : Node} (h : (trim statement).replacement = some other) :
    other.tally Tag.declares ≤ statement.tally Tag.declares := by
  unfold trim at h
  split at h
  · rename_i inner hinner
    cases h
    exact tally_unwrapped hinner
  · cases h

theorem tally_trimBeforeElse {other : Node} (h : (trimBeforeElse statement).replacement = some other) :
    other.tally Tag.declares ≤ statement.tally Tag.declares := by
  unfold trimBeforeElse at h
  split at h
  · split at h
    · cases h
    · cases h
      rw [tally_eq]
      change tallyAll Tag.declares [statement] + 0 ≤ _
      rw [tallyAll_cons, tallyAll_nil]
      omega
  · exact tally_trim h

theorem Trimmed.tally (h : Trimmed how current i new)
    (hhow : ∀ {statement other}, (how statement).replacement = some other →
      other.tally Tag.declares ≤ statement.tally Tag.declares) :
    new.tally Tag.declares ≤ current.tally Tag.declares := by
  cases h with
  | kept => exact Nat.le_refl _
  | @replaced statement other hchild hother =>
    have hle := hhow hother
    have hslot := tally_withSlot Tag.declares (child?_eq_some.mp hchild) (.one other)
    simp only [Slot.toList, tallyAll_cons, tallyAll_nil] at hslot
    omega

theorem tally_spliced (statements : List Node) :
    tallyAll Tag.declares (spliced statements) ≤ tallyAll Tag.declares statements := by
  induction statements with
  | nil => exact Nat.le_refl _
  | cons statement statements ih =>
    have hlist := tallyAll_list_le Tag.declares statement 0
    rw [spliced] at ih
    rw [spliced, List.flatMap_cons, tallyAll_append, tallyAll_cons]
    split
    · omega
    · rw [tallyAll_cons]
      rw [tallyAll_nil]
      omega

theorem tally_of_edited {tag : Tag} (h : Edited tag current new) :
    new.tally Tag.declares ≤ current.tally Tag.declares := by
  cases h with
  | body _ htrimmed => exact htrimmed.tally tally_trim
  | arms _ hfirst hsecond =>
    refine Nat.le_trans (hsecond.tally tally_trim) (hfirst.tally fun hother => ?_)
    split at hother
    · exact tally_trimBeforeElse hother
    · exact tally_trim hother
  | block _ hspliced =>
    cases hspliced with
    | kept => exact Nat.le_refl _
    | dissolved hsome =>
      obtain ⟨_, hmem, -⟩ := List.any_eq_true.mp hsome
      have hlist := List.ne_nil_of_mem hmem
      have hslot := tally_withSlot Tag.declares (slots_of_list hlist)
        (.many (spliced (current.list 0)))
      have hle := tally_spliced (current.list 0)
      rw [Slot.toList, Slot.toList] at hslot
      omega
  | same _ _ _ hsame => exact Nat.le_of_eq (by rw [hsame])

end Edited

/-! ### Only categories matter -/

theorem endsWithOpenIf_skeleton (node : Node) :
    endsWithOpenIf node.skeleton = endsWithOpenIf node := by
  induction node using induct with
  | h node ih =>
    have hchild : ∀ i, (node.skeleton.child? i).map endsWithOpenIf =
        (node.child? i).map endsWithOpenIf := by
      intro i
      rw [child?_skeleton, Option.map_map]
      exact Option.map_congr fun child hsome => ih child (mem_children_of_child? hsome)
    rw [endsWithOpenIf_eq, endsWithOpenIf_eq node, skeleton_tag, hchild, hchild, hchild]

theorem dissolves_skeleton (node : Node) : dissolves node.skeleton = dissolves node := by
  simp [dissolves, list_skeleton, Function.comp_def]

theorem unwrapped?_skeleton (node : Node) :
    unwrapped? node.skeleton = (unwrapped? node).map skeleton := by
  unfold unwrapped?
  rw [skeleton_tag, list_skeleton]
  split
  · match node.list 0 with
    | [] => rfl
    | [single] =>
      have hneeds : needsBlock single.skeleton = needsBlock single := by
        rw [needsBlock, skeleton_tag, needsBlock]
      simp only [List.map_cons, List.map_nil, hneeds]
      cases needsBlock single <;> rfl
    | _ :: _ :: _ => rfl
  · rfl

theorem trim_skeleton (node : Node) :
    (trim node.skeleton).replacement = (trim node).replacement.map skeleton := by
  rw [trim, trim, unwrapped?_skeleton]
  cases unwrapped? node <;> rfl

theorem trimBeforeElse_skeleton (node : Node) :
    (trimBeforeElse node.skeleton).replacement = (trimBeforeElse node).replacement.map skeleton := by
  have hopen : endsWithOpenIf ((unwrapped? node.skeleton).getD node.skeleton) =
      endsWithOpenIf ((unwrapped? node).getD node) := by
    rw [unwrapped?_skeleton]
    cases unwrapped? node <;> exact endsWithOpenIf_skeleton _
  rw [trimBeforeElse, trimBeforeElse, hopen, skeleton_tag]
  split
  · split
    · rfl
    · exact congrArg some (skeleton_eq (.scope [node])).symm
  · exact trim_skeleton node

theorem rests_skeleton {how : Node → Trim}
    (hhow : ∀ node : Node, (how node.skeleton).replacement = (how node).replacement.map skeleton)
    (node : Node) (i : Nat) : Rests how node.skeleton i ↔ Rests how node i := by
  unfold Rests
  rw [child?_skeleton]
  cases node.child? i with
  | none => simp
  | some child => simp [hhow]

/-- Whether braces can be removed depends on nothing but categories. -/
theorem trimless_skeleton (node : Node) : Trimless node.skeleton ↔ Trimless node := by
  have harm : ∀ hasElse : Bool,
      Rests (if hasElse then trimBeforeElse else trim) node.skeleton 1 ↔
        Rests (if hasElse then trimBeforeElse else trim) node 1 := by
    intro hasElse
    cases hasElse with
    | true => exact rests_skeleton trimBeforeElse_skeleton node 1
    | false => exact rests_skeleton trim_skeleton node 1
  have helse : (node.skeleton.child? 2).isSome = (node.child? 2).isSome := by
    rw [child?_skeleton, Option.isSome_map]
  have hlist : (node.skeleton.list 0).any dissolves = (node.list 0).any dissolves := by
    simp only [list_skeleton, List.any_map, Function.comp_def, dissolves_skeleton]
  have hbody := rests_skeleton trim_skeleton node (bodyPlace node.tag)
  constructor
  · rintro ⟨body, arms, block⟩
    rw [skeleton_tag, hbody] at body
    rw [skeleton_tag, helse, harm, rests_skeleton trim_skeleton] at arms
    rw [skeleton_tag, hlist] at block
    exact ⟨body, arms, block⟩
  · rintro ⟨body, arms, block⟩
    refine ⟨?_, ?_, ?_⟩
    · rwa [skeleton_tag, hbody]
    · rwa [skeleton_tag, helse, harm, rests_skeleton trim_skeleton]
    · rwa [skeleton_tag, hlist]

theorem every_trimless_skeleton (root : Node) :
    root.skeleton.Every Trimless ↔ root.Every Trimless :=
  every_changed children_skeleton trimless_skeleton root

/-! ### The pass -/

/-- Nothing is left to trim, and a tree without anything to trim keeps its shape. -/
structure Reduces (old new : Node) : Prop where
  le : new.tally Tag.declares ≤ old.tally Tag.declares
  trimless : new.Every Trimless
  fixed : old.Every Trimless → new.bare = old.bare

theorem reduces : editor.Law (fun node => node.fitsLayout = true) (fun (_ : Unit) _ => ())
    (fun _ _ => True) (fun _ _ => True) (fun _ _ => Reduces) := by
  refine .ofLocal (fun h => h) (fun _ => rfl) (fun _ => rfl)
    fun {node _ _ _ change} _ hdescend hover => ?_
  obtain ⟨change', count, hrun, hedited⟩ := editing_run node hdescend
  have hle := tally_of_over Tag.declares hover fun _ _ hchild => hchild.le
  rw [← hover.tag] at hedited
  refine ⟨change', count, hrun, Nat.le_trans (tally_of_edited hedited) hle.1,
    trimless_of_edited hedited fun child hchild => ?_, fun hevery => ?_⟩
  · obtain ⟨_, -, hchild'⟩ := exists_of_forall₂ (List.Forall₂.flip hover.children) hchild
    exact hchild'.trimless
  · have hbare : (change.result node).bare = node.bare := bare_of_over_bare
      (hover.imp_mem fun child hchild _ hreduces => hreduces.fixed (hevery.child hchild))
    have hcurrent : Trimless (change.result node) := by
      rw [← trimless_skeleton, skeleton_of_bare hbare, trimless_skeleton]
      exact hevery.root
    rw [eq_of_trimless hedited hcurrent, hbare]

theorem reduces_of_reduce {root : Node} (hroot : root.Every (fun node => node.fitsLayout = true))
    {change : Change} {count : Nat} (hrun : reduce root = .ok (change, count)) :
    Reduces root (change.result root) := by
  obtain ⟨change', count', hrun', -, -, hreduces⟩ :=
    reduces.apply (k := ()) (s := 0) hroot trivial
  cases hrun'.symm.trans hrun
  exact hreduces

end GlslShrink.Braces
