import GlslShrink.Pass.Braces
import GlslShrink.Proofs.Pass.Rebuilt

/-!
Removing braces keeps shaders printable. Whatever replaces a block is again a statement that passes
the checks (`trims_trim`, `trims_trimBeforeElse`), so a loop, a branch or a block that was trimmed
is one of the grammar. The first branch of an `if` with an `else` needs more: after
`trimBeforeElse` it never ends with an `if` that the `else` could go with
(`endsWithOpenIf_trimBeforeElse`).
-/

set_option autoImplicit false

namespace GlslShrink.Braces

open Node

/-! ### Replacements -/

/-- The node passes the checks and can stand where a statement can. -/
structure IsStatement (strict : Bool) (node : Node) : Prop where
  tag : node.tag.isStatement = true
  checked : node.Every (Checked strict)

/-- The replacements of statements are statements. -/
def Trims (strict : Bool) (how : Node → Trim) : Prop :=
  ∀ {statement other}, IsStatement strict statement → (how statement).replacement = some other →
    IsStatement strict other

variable {strict : Bool} {statement : Node}

theorem isStatement_empty : IsStatement strict (.expressionStatement none) where
  tag := rfl
  checked := every_iff.mpr ⟨⟨rfl, fun _ => rfl, rfl⟩, nofun⟩

theorem isStatement_scope (h : IsStatement strict statement) :
    IsStatement strict (.scope [statement]) where
  tag := rfl
  checked := by
    refine every_iff.mpr ⟨⟨?_, fun _ => rfl, rfl⟩, ?_⟩
    · refine fitsGrammar_iff.mpr ⟨rfl, ?_, rfl, rfl, rfl⟩
      change (statement.tag.isStatement && true && true) = true
      rw [h.tag, Bool.and_self, Bool.and_self]
    · intro child hchild
      obtain rfl := List.mem_singleton.mp (show child ∈ [statement] from hchild)
      exact h.checked

theorem isStatement_of_mem_scope (h : IsStatement strict statement)
    (htag : statement.tag = .scope) {inner : Node} (hinner : inner ∈ statement.list 0) :
    IsStatement strict inner where
  tag := tag_of_mem_list h.checked.root.1 (by rw [htag]; rfl) hinner
  checked := h.checked.child (mem_children_of_mem_list hinner)

theorem unwrapped?_cases {inner : Node} (h : unwrapped? statement = some inner) :
    statement.tag = .scope ∧
      (statement.list 0 = [] ∧ inner = .expressionStatement none ∨ statement.list 0 = [inner]) := by
  unfold unwrapped? at h
  split at h
  · rename_i htag
    refine ⟨htag, ?_⟩
    split at h
    · rename_i hlist
      cases h
      exact Or.inl ⟨hlist, rfl⟩
    · rename_i single hlist
      split at h
      · cases h
      · cases h
        exact Or.inr hlist
    · cases h
  · cases h

theorem isStatement_unwrapped (h : IsStatement strict statement) {inner : Node}
    (hinner : unwrapped? statement = some inner) : IsStatement strict inner := by
  obtain ⟨htag, ⟨-, rfl⟩ | hlist⟩ := unwrapped?_cases hinner
  · exact isStatement_empty
  · exact isStatement_of_mem_scope h htag (by rw [hlist]; exact List.mem_singleton.mpr rfl)

theorem trims_trim : Trims strict trim := by
  intro statement other hstatement hother
  unfold trim at hother
  split at hother
  · rename_i inner hinner
    cases hother
    exact isStatement_unwrapped hstatement hinner
  · cases hother

theorem trims_trimBeforeElse : Trims strict trimBeforeElse := by
  intro statement other hstatement hother
  unfold trimBeforeElse at hother
  split at hother
  · split at hother
    · cases hother
    · cases hother
      exact isStatement_scope hstatement
  · exact trims_trim hstatement hother

theorem endsWithOpenIf_of_scope (htag : statement.tag = .scope) :
    endsWithOpenIf statement = false := by
  rw [endsWithOpenIf_eq, htag]

/-- What stands before an `else` does not end with an `if` that has none. -/
theorem endsWithOpenIf_trimBeforeElse (statement : Node) :
    endsWithOpenIf ((trimBeforeElse statement).replacement.getD statement) = false := by
  unfold trimBeforeElse
  split
  · split
    · rename_i htag
      exact endsWithOpenIf_of_scope htag
    · exact endsWithOpenIf_of_scope rfl
  · rename_i hclosed
    rw [Bool.not_eq_true] at hclosed
    unfold trim
    cases hinner : unwrapped? statement with
    | none => rwa [hinner] at hclosed
    | some inner => rwa [hinner] at hclosed

/-! ### Trimming a place -/

/-- What a node is after the statement in one of its places was trimmed. -/
inductive Trimmed (how : Node → Trim) (current : Node) (i : Nat) : Node → Prop where
  | kept (h : ∀ statement, current.child? i = some statement →
      (how statement).replacement = none) : Trimmed how current i current
  | replaced {statement other : Node} (hchild : current.child? i = some statement)
      (hother : (how statement).replacement = some other) :
      Trimmed how current i (current.withSlot i (.one other))

theorem trimChild_eq {how : Node → Trim} {node statement : Node} {i : Nat} {change : Change}
    (hchild : (change.result node).child? i = some statement) (count : Nat) :
    trimChild how node i change count =
      (.ok ((how statement).replacement.elim change fun other =>
        .became ((change.result node).withSlot i (.one other))), count + (how statement).removed) := by
  simp only [trimChild, hchild]
  rw [run_bind (run_modify _ count)]
  cases (how statement).replacement <;> rfl

theorem trimChild_of_none {how : Node → Trim} {node : Node} {i : Nat} {change : Change}
    (hchild : (change.result node).child? i = none) (count : Nat) :
    trimChild how node i change count = (.ok change, count) := by
  simp only [trimChild, hchild]
  rfl

theorem trimChild_run (how : Node → Trim) (node : Node) (i : Nat) (change : Change)
    (count : Nat) :
    ∃ change' count', trimChild how node i change count = (.ok change', count') ∧
      Trimmed how (change.result node) i (change'.result node) := by
  cases hchild : (change.result node).child? i with
  | none =>
    refine ⟨change, count, trimChild_of_none hchild count, .kept fun statement hsome => ?_⟩
    cases hchild.symm.trans hsome
  | some statement =>
    refine ⟨_, _, trimChild_eq hchild count, ?_⟩
    cases hother : (how statement).replacement with
    | none =>
      refine .kept fun _ hsome => ?_
      cases hchild.symm.trans hsome
      exact hother
    | some other => exact .replaced hchild hother

namespace Trimmed

variable {how : Node → Trim} {current new : Node} {i : Nat}

theorem tag (h : Trimmed how current i new) : new.tag = current.tag := by
  cases h <;> rfl

theorem value (h : Trimmed how current i new) : new.value = current.value := by
  cases h <;> rfl

theorem qualifiers (h : Trimmed how current i new) : new.qualifiers = current.qualifiers := by
  cases h <;> rfl

theorem child?_of_ne (h : Trimmed how current i new) {j : Nat} (hne : i ≠ j) :
    new.child? j = current.child? j := by
  cases h with
  | kept => rfl
  | replaced =>
    rw [child?, withSlot, withSlots, Slot.childAt, List.getElem?_set_ne hne, child?, Slot.childAt]

theorem child?_self (h : Trimmed how current i new) :
    new.child? i = (current.child? i).map fun statement =>
      (how statement).replacement.getD statement := by
  cases h with
  | kept hkept =>
    cases hchild : current.child? i with
    | none => rfl
    | some statement => rw [Option.map_some, hkept statement hchild, Option.getD_none]
  | replaced hchild hother =>
    have hplace := (List.getElem?_eq_some_iff.mp (child?_eq_some.mp hchild)).1
    rw [hchild, Option.map_some, hother, Option.getD_some, child?_eq_some]
    exact List.getElem?_set_self hplace

theorem nearly (h : Trimmed how current i new) (hhow : Trims strict how)
    (hnearly : current.Nearly strict) (hholds : current.tag.holdsStatements = true)
    {kind : SlotKind} (hkind : current.tag.layout[i]? = some kind) (hone : kind ≠ .list)
    (hplace : current.tag.places[i]? = some Tag.isStatement) : new.Nearly strict := by
  cases h with
  | kept => exact hnearly
  | replaced hchild hother =>
    have hmem := mem_children_of_child? hchild
    have hstatement := hhow ⟨tag_of_child? hnearly.grammar hplace hchild, hnearly.below _ hmem⟩
      hother
    refine hnearly.withSlot hkind hplace ?_ ?_ (isComplete_of_holdsStatements hholds)
    · cases kind with
      | required | optional => rfl
      | list => exact absurd rfl hone
    · exact List.forall_mem_singleton.mpr ⟨hstatement.tag, hstatement.checked⟩

end Trimmed

/-! ### Every node -/

/-- What becomes of a node. -/
structure Reduced (strict : Bool) (old new : Node) : Prop where
  alike : old.Alike new
  checked : new.Every (Checked strict)
  topLevel : old.tag = .shader → ∀ node ∈ new.list 0, ∃ node' ∈ old.list 0,
    node.tag = node'.tag ∧ node.qualifiers = node'.qualifiers

theorem reduced_of_nearly {old current new : Node} (halike : old.Alike current)
    (htag : new.tag = current.tag) (hvalue : new.value = current.value)
    (hqualifiers : new.qualifiers = current.qualifiers) (hnearly : new.Nearly strict)
    (helse : new.keepsElse = true) (hholds : old.tag.holdsStatements = true)
    (hinner : old.tag ≠ .shader) : Reduced strict old new := by
  have hholds' : new.tag.holdsStatements = true := by rwa [htag, halike.tag]
  exact
    { alike := halike.trans
        (alike_of_holdsStatements htag hvalue hqualifiers hholds' hnearly.grammar)
      checked := hnearly.every_checked hholds' helse
      topLevel := fun htop => absurd htop hinner }

variable {old current new : Node}

theorem reduced_loop (hloop : old.tag = .forLoop ∨ old.tag = .whileLoop ∨ old.tag = .doWhileLoop)
    (halike : old.Alike current) (hnearly : current.Nearly strict)
    (htrimmed : Trimmed trim current (bodyPlace old.tag) new) : Reduced strict old new := by
  have htag := halike.tag
  have hplace : ∃ kind, old.tag.layout[bodyPlace old.tag]? = some kind ∧ kind ≠ .list ∧
      old.tag.places[bodyPlace old.tag]? = some Tag.isStatement := by
    rcases hloop with h | h | h <;> rw [h] <;> exact ⟨.required, rfl, nofun, rfl⟩
  have hkinds : old.tag.holdsStatements = true ∧ old.tag ≠ .shader ∧ old.tag ≠ .ifStatement := by
    rcases hloop with h | h | h <;> rw [h] <;> decide
  obtain ⟨kind, hkind, hone, hplace⟩ := hplace
  obtain ⟨hholds, hinner, hplain⟩ := hkinds
  have hnearly' : new.Nearly strict := htrimmed.nearly trims_trim hnearly (by rwa [htag])
    (by rwa [htag]) hone (by rwa [htag])
  exact reduced_of_nearly halike htrimmed.tag htrimmed.value htrimmed.qualifiers hnearly'
    (keepsElse_of_ne (by rwa [htrimmed.tag, htag])) hholds hinner

/-- An `if` whose branches were trimmed keeps its `else`. -/
theorem keepsElse_trimBranches {middle : Node}
    (hfirst : Trimmed (if (current.child? 2).isSome then trimBeforeElse else trim) current 1 middle)
    (hsecond : Trimmed trim middle 2 new) : new.keepsElse = true := by
  have hbranch : new.child? 1 = middle.child? 1 := hsecond.child?_of_ne (by decide)
  have helse : middle.child? 2 = current.child? 2 := hfirst.child?_of_ne (by decide)
  cases hsome : current.child? 2 with
  | none =>
    have hnone : new.child? 2 = none := by rw [hsecond.child?_self, helse, hsome, Option.map_none]
    rw [keepsElse, hnone, Option.isNone_none, Bool.or_true, Bool.true_or]
  | some _ =>
    rw [hsome, Option.isSome_some, if_pos rfl] at hfirst
    have hclosed : (new.child? 1).any endsWithOpenIf = false := by
      rw [hbranch, hfirst.child?_self]
      cases current.child? 1 with
      | none => rfl
      | some statement => exact endsWithOpenIf_trimBeforeElse statement
    rw [keepsElse, hclosed, Bool.not_false, Bool.or_true]

theorem reduced_if {middle : Node} (hif : old.tag = .ifStatement) (halike : old.Alike current)
    (hnearly : current.Nearly strict)
    (hfirst : Trimmed (if (current.child? 2).isSome then trimBeforeElse else trim) current 1 middle)
    (hsecond : Trimmed trim middle 2 new) : Reduced strict old new := by
  have htag : current.tag = .ifStatement := halike.tag.trans hif
  have htag' : middle.tag = .ifStatement := hfirst.tag.trans htag
  have hhow : Trims strict (if (current.child? 2).isSome then trimBeforeElse else trim) := by
    split
    · exact trims_trimBeforeElse
    · exact trims_trim
  have hthen : current.tag.layout[1]? = some .required := by rw [htag]; rfl
  have hmiddle : middle.Nearly strict :=
    hfirst.nearly hhow hnearly (by rw [htag]; rfl) hthen nofun (by rw [htag]; rfl)
  have helse : middle.tag.layout[2]? = some .optional := by rw [htag']; rfl
  have hnew : new.Nearly strict :=
    hsecond.nearly trims_trim hmiddle (by rw [htag']; rfl) helse nofun (by rw [htag']; rfl)
  exact reduced_of_nearly halike (hsecond.tag.trans hfirst.tag) (hsecond.value.trans hfirst.value)
    (hsecond.qualifiers.trans hfirst.qualifiers) hnew (keepsElse_trimBranches hfirst hsecond)
    (by rw [hif]; rfl) (by rw [hif]; decide)

theorem dissolves_iff {node : Node} : dissolves node = true ↔
    node.tag = .scope ∧ ∀ inner ∈ node.list 0, inner.tag ≠ .declaration := by
  simp [dissolves]

/-- The blocks of a list of statements can be dissolved. -/
theorem isStatement_of_mem_spliced {statements : List Node}
    (h : ∀ node ∈ statements, IsStatement strict node) {node : Node}
    (hnode : node ∈ spliced statements) : IsStatement strict node := by
  obtain ⟨statement, hstatement, hinside⟩ := List.mem_flatMap.mp hnode
  split at hinside
  · rename_i hdissolves
    exact isStatement_of_mem_scope (h statement hstatement) (dissolves_iff.mp hdissolves).1 hinside
  · obtain rfl := List.mem_singleton.mp hinside
    exact h node hstatement

/-- What a node is after the blocks among its statements were dissolved. -/
inductive Spliced (current : Node) : Node → Prop where
  | kept (h : (current.list 0).any dissolves = false) : Spliced current current
  | dissolved (h : (current.list 0).any dissolves = true) :
      Spliced current (current.withSlot 0 (.many (spliced (current.list 0))))

theorem splice_run (node : Node) (change : Change) (count : Nat) :
    ∃ change' count', splice node change count = (.ok change', count') ∧
      Spliced (change.result node) (change'.result node) := by
  unfold splice
  by_cases h : ((change.result node).list 0).any dissolves = true
  · simp only [if_pos h]
    exact ⟨_, _, rfl, .dissolved h⟩
  · simp only [if_neg h]
    exact ⟨_, _, rfl, .kept (Bool.eq_false_iff.mpr h)⟩

theorem reduced_scope (hscope : old.tag = .scope) (halike : old.Alike current)
    (hnearly : current.Nearly strict)
    (hspliced : Spliced current new) : Reduced strict old new := by
  have htag : current.tag = .scope := halike.tag.trans hscope
  have hplace : current.tag.places[0]? = some Tag.isStatement := by rw [htag]; rfl
  have hholds : old.tag.holdsStatements = true := by rw [hscope]; rfl
  have hinner : old.tag ≠ .shader := by rw [hscope]; decide
  have helse : ∀ {node : Node}, node.tag = current.tag → node.keepsElse = true := fun heq =>
    keepsElse_of_ne (by rw [heq, htag]; decide)
  cases hspliced with
  | kept => exact reduced_of_nearly halike rfl rfl rfl hnearly (helse rfl) hholds hinner
  | dissolved =>
    have hstatements : ∀ node ∈ current.list 0, IsStatement strict node := fun node hnode =>
      ⟨tag_of_mem_list hnearly.grammar hplace hnode,
        hnearly.below node (mem_children_of_mem_list hnode)⟩
    have hlist : current.tag.layout[0]? = some .list := by rw [htag]; rfl
    refine reduced_of_nearly halike rfl rfl rfl ?_ (helse rfl) hholds hinner
    refine hnearly.withSlot hlist hplace rfl (fun node hnode => ?_)
      (isComplete_of_holdsStatements (by rw [withSlot, withSlots, htag]; rfl))
    have hstatement := isStatement_of_mem_spliced hstatements hnode
    exact ⟨hstatement.tag, hstatement.checked⟩

/-! ### The pass -/

section Editing

variable {node : Node} (descend : Walk Nat Change)

theorem editing_loop (h : node.tag = .forLoop ∨ node.tag = .whileLoop ∨ node.tag = .doWhileLoop) :
    editor.editing node descend = (do
      let change ← descend
      return some (← trimChild trim node (bodyPlace node.tag) change)) := by
  rcases h with h | h | h <;> simp only [editor, h]

theorem editing_if (h : node.tag = .ifStatement) :
    editor.editing node descend = (do
      let change ← descend
      return some (← trimBranches node change)) := by
  simp only [editor, h]

theorem editing_scope (h : node.tag = .scope) :
    editor.editing node descend = (do
      let change ← descend
      return some (← splice node change)) := by
  simp only [editor, h]

theorem editing_other (hloop : ¬(node.tag = .forLoop ∨ node.tag = .whileLoop ∨
      node.tag = .doWhileLoop)) (hif : node.tag ≠ .ifStatement) (hscope : node.tag ≠ .scope) :
    editor.editing node descend = (do
      let change ← descend
      return some change) := by
  simp only [editor]
  congr 1
  funext change
  split <;> simp_all

end Editing

/-- What the pass makes of a node of a category that became `current` below. -/
inductive Edited (tag : Tag) (current new : Node) : Prop where
  | body (htag : tag = .forLoop ∨ tag = .whileLoop ∨ tag = .doWhileLoop)
      (htrimmed : Trimmed trim current (bodyPlace tag) new)
  | arms {middle : Node} (htag : tag = .ifStatement)
      (hfirst : Trimmed (if (current.child? 2).isSome then trimBeforeElse else trim) current 1 middle)
      (hsecond : Trimmed trim middle 2 new)
  | block (htag : tag = .scope) (hspliced : Spliced current new)
  | same (hloop : ¬(tag = .forLoop ∨ tag = .whileLoop ∨ tag = .doWhileLoop))
      (hif : tag ≠ .ifStatement) (hscope : tag ≠ .scope) (hsame : new = current)

theorem editing_run (node : Node) {descend : Walk Nat Change} {s s' : Nat} {change : Change}
    (hdescend : descend s = (.ok change, s')) :
    ∃ change' count, editor.editing node descend s = (.ok (some change'), count) ∧
      Edited node.tag (change.result node) (change'.result node) := by
  by_cases hloop : node.tag = .forLoop ∨ node.tag = .whileLoop ∨ node.tag = .doWhileLoop
  · obtain ⟨change', count, hrun, htrimmed⟩ :=
      trimChild_run trim node (bodyPlace node.tag) change s'
    refine ⟨change', count, ?_, .body hloop htrimmed⟩
    rw [editing_loop descend hloop, run_bind hdescend, run_bind hrun]
    rfl
  by_cases hif : node.tag = .ifStatement
  · obtain ⟨change₁, count₁, hrun₁, hfirst⟩ := trimChild_run
      (if ((change.result node).child? 2).isSome then trimBeforeElse else trim) node 1 change s'
    obtain ⟨change₂, count₂, hrun₂, hsecond⟩ := trimChild_run trim node 2 change₁ count₁
    have hbranches : trimBranches node change s' = (.ok change₂, count₂) := by
      rw [trimBranches, run_bind hrun₁, hrun₂]
    refine ⟨change₂, count₂, ?_, .arms hif hfirst hsecond⟩
    rw [editing_if descend hif, run_bind hdescend, run_bind hbranches]
    rfl
  by_cases hscope : node.tag = .scope
  · obtain ⟨change', count, hrun, hspliced⟩ := splice_run node change s'
    refine ⟨change', count, ?_, .block hscope hspliced⟩
    rw [editing_scope descend hscope, run_bind hdescend, run_bind hrun]
    rfl
  · refine ⟨change, s', ?_, .same hloop hif hscope rfl⟩
    rw [editing_other descend hloop hif hscope, run_bind hdescend]
    rfl

theorem law (strict : Bool) : editor.Law (Checked strict) (fun (_ : Unit) _ => ())
    (fun _ _ => True) (fun _ _ => True) (fun _ _ => Reduced strict) := by
  refine .ofLocal (fun h => (fitsGrammar_iff.mp h.1).1) (fun _ => rfl) (fun _ => rfl)
    fun {node descend s s' change} hnode hdescend hover => ?_
  obtain ⟨change', count, hrun, hedited⟩ := editing_run node hdescend
  obtain ⟨halike, hnearly, hunambiguous⟩ :=
    nearly_of_over (fun _ _ hreduced => ⟨hreduced.alike, hreduced.checked⟩) hnode hover
  refine ⟨change', count, hrun, ?_⟩
  cases hedited with
  | body htag htrimmed => exact reduced_loop htag halike hnearly htrimmed
  | arms htag hfirst hsecond => exact reduced_if htag halike hnearly hfirst hsecond
  | block htag hspliced => exact reduced_scope htag halike hnearly hspliced
  | same _ hif _ hsame =>
    rw [hsame]
    refine ⟨halike, ?_, fun _ => ?_⟩
    · have helse := keepsElse_of_ne (by rwa [hover.tag])
      exact every_iff.mpr ⟨⟨hnearly.grammar, hunambiguous, helse⟩, hnearly.below⟩
    · exact topLevel_of_over (fun _ _ hreduced => hreduced.alike) hover

/-- Removing braces succeeds on every shader that passes the checks and keeps it so. -/
theorem runs_reduce (strict : Bool) : Runs strict reduce := by
  intro root htag hroot
  obtain ⟨change, count, hrun, -, -, hreduced⟩ :=
    (law strict).apply (k := ()) (s := 0) hroot trivial
  exact ⟨change, count, hrun, hreduced.alike.tag, hreduced.checked, hreduced.topLevel htag⟩

/-- Removing braces keeps printable shaders printable. -/
theorem keepsPrintable_reduce : KeepsPrintable reduce :=
  (runs_reduce true).keepsPrintable

end GlslShrink.Braces
