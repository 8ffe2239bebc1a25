import GlslShrink.Pass.Declarations
import GlslShrink.Proofs.Pass.Rebuilt

/-!
Merging declarations keeps shaders printable. A merged declaration has declarators of the
declarations it was merged from (`merge_checked`), so the list it stands in is again one of statements
or of top-level declarations.
-/

set_option autoImplicit false

namespace GlslShrink.Declarations

open Node

variable {strict : Bool}

theorem forall_mergeAfter {P : Node → Prop}
    (hmerge : ∀ a b, P a → P b → mergeable a b = true → P (merge a b)) {current : Node}
    {nodes : List Node} (hcurrent : P current) (h : ∀ node ∈ nodes, P node) :
    ∀ node ∈ (mergeAfter current nodes).1, P node := by
  fun_induction mergeAfter current nodes with
  | case1 current => simpa using hcurrent
  | case2 current node nodes hmergeable merged count heq ih =>
    obtain ⟨hnode, hnodes⟩ := List.forall_mem_cons.mp h
    rw [heq] at ih
    exact ih (hmerge current node hcurrent hnode hmergeable) hnodes
  | case3 current node nodes hmergeable merged count heq ih =>
    obtain ⟨hnode, hnodes⟩ := List.forall_mem_cons.mp h
    rw [heq] at ih
    exact List.forall_mem_cons.mpr ⟨hcurrent, ih hnode hnodes⟩

/-- What holds of all statements of a list and survives merging holds of the merged list. -/
theorem forall_mergeList {P : Node → Prop}
    (hmerge : ∀ a b, P a → P b → mergeable a b = true → P (merge a b)) {nodes : List Node}
    (h : ∀ node ∈ nodes, P node) : ∀ node ∈ (mergeList nodes).1, P node := by
  cases nodes with
  | nil => simp [mergeList]
  | cons node nodes =>
    obtain ⟨hnode, hnodes⟩ := List.forall_mem_cons.mp h
    exact forall_mergeAfter hmerge hnode hnodes

theorem merge_checked {first second : Node} (hfirst : first.Every (Checked strict))
    (hsecond : second.Every (Checked strict)) (hmergeable : mergeable first second = true) :
    (merge first second).Every (Checked strict) := by
  simp only [mergeable, isPlain, Bool.and_eq_true, beq_iff_eq, Bool.not_eq_true'] at hmergeable
  obtain ⟨⟨⟨⟨⟨htag, hnames⟩, -⟩, ⟨htag', -⟩, -⟩, -⟩, -⟩ := hmergeable
  obtain ⟨name, hname⟩ := List.exists_mem_of_ne_nil _ (List.isEmpty_eq_false_iff.mp hnames)
  have hplaces : ∀ {node : Node}, node.tag = .declaration →
      node.tag.places[1]? = some (· == .declarator) := fun h => by rw [h]; rfl
  have hdeclarators : ∀ {node : Node}, node.Every (Checked strict) → node.tag = .declaration →
      ∀ child ∈ node.list 1, (child.tag == .declarator) = true ∧ child.Every (Checked strict) :=
    fun hnode htag child hchild => ⟨tag_of_mem_list hnode.root.1 (hplaces htag) hchild,
      hnode.child (mem_children_of_mem_list hchild)⟩
  have hkind : first.tag.layout[1]? = some .list := by rw [htag]; rfl
  have hlist : (merge first second).list 1 = first.list 1 ++ second.list 1 :=
    list_withSlot (lt_length_of_layout hfirst.root.1 hkind) _
  have hmerged : (merge first second).tag = .declaration := htag
  have hcomplete : (merge first second).isComplete = true := by
    have hsome := List.ne_nil_of_mem (List.mem_append_left (second.list 1) hname)
    simp only [isComplete, hmerged, hlist, List.isEmpty_eq_false_iff.mpr hsome]
    rfl
  have hnearly : (merge first second).Nearly strict :=
    (nearly_of_every hfirst).withSlot hkind (hplaces htag) rfl
      (List.forall_mem_append.mpr ⟨hdeclarators hfirst htag, hdeclarators hsecond htag'⟩) hcomplete
  refine every_iff.mpr ⟨⟨hnearly.grammar, ?_, ?_⟩, hnearly.below⟩
  · simp only [isUnambiguous, hmerged, implies_true]
  · exact keepsElse_of_ne (by rw [hmerged]; decide)

/-- What becomes of a node. -/
structure Merged (strict : Bool) (old new : Node) : Prop where
  steady : old.Steady new
  stays : old.Stays strict new

/-- What the pass makes of a node of a category that became `current` below, and how many
declarations it merges away there. -/
inductive Edited (tag : Tag) (current new : Node) : Nat → Prop where
  | same (hfully : tag = .shader ∨ tag = .scope → hasMergeable (current.list 0) = false)
      (hsame : new = current) : Edited tag current new 0
  | merged (htag : tag = .shader ∨ tag = .scope) (hmergeable : hasMergeable (current.list 0) = true)
      (hmerged : new = current.withSlot 0 (.many (mergeList (current.list 0)).1)) :
      Edited tag current new (mergeList (current.list 0)).2

theorem editing_run (node : Node) {descend : Walk Nat Change} {s s' : Nat} {change : Change}
    (hdescend : descend s = (.ok change, s')) :
    ∃ change' gain, editor.editing node descend s = (.ok (some change'), s' + gain) ∧
      Edited node.tag (change.result node) (change'.result node) gain := by
  simp only [editor]
  rw [run_bind hdescend]
  by_cases htag : node.tag = .shader ∨ node.tag = .scope
  · simp only [if_pos htag, mergeWithin]
    by_cases hmergeable : hasMergeable ((change.result node).list 0) = true
    · simp only [if_pos hmergeable]
      exact ⟨_, _, rfl, .merged htag hmergeable rfl⟩
    · simp only [if_neg hmergeable]
      exact ⟨_, _, rfl, .same (fun _ => Bool.eq_false_iff.mpr hmergeable) rfl⟩
  · simp only [if_neg htag]
    exact ⟨_, _, rfl, .same (fun h => absurd h htag) rfl⟩

theorem merged_of_over {old new : Node} (h : old.Every (Checked strict))
    (hover : old.Over (Merged strict) new) : Merged strict old new := by
  have hslots : List.Forall₂ (Slot.Related Steady) old.slots new.slots :=
    hover.slots.imp fun _ _ hslot => hslot.imp fun _ _ hmerged => hmerged.steady
  obtain ⟨halike, hnearly, hunambiguous⟩ :=
    nearly_of_over (fun _ _ hmerged => ⟨hmerged.steady.toAlike, hmerged.stays.checked⟩) h hover
  have helse := keepsElse_of_steady h.root.2.2 hover.tag hslots
  exact
    { steady := ⟨halike, endsWithOpenIf_of_steady hover.tag hslots⟩
      stays :=
        { tag := hover.tag
          checked := every_iff.mpr ⟨⟨hnearly.grammar, hunambiguous, helse⟩, hnearly.below⟩
          topLevel := topLevel_of_over (fun _ _ hmerged => hmerged.steady.toAlike) hover } }

/-- Merging within a list of statements or of top-level declarations. -/
theorem Merged.mergeList {old new : Node} (h : Merged strict old new)
    (htag : old.tag = .shader ∨ old.tag = .scope) :
    Merged strict old (new.withSlot 0 (.many (Declarations.mergeList (new.list 0)).1)) := by
  have htag' := h.stays.tag
  obtain ⟨allowed, hplace⟩ : ∃ allowed, new.tag.places[0]? = some allowed := by
    rw [htag']
    rcases htag with htag | htag <;> rw [htag] <;> exact ⟨_, rfl⟩
  have hkind : new.tag.layout[0]? = some .list := by
    rw [htag']
    rcases htag with htag | htag <;> rw [htag] <;> rfl
  have hholds : new.tag.holdsStatements = true := by
    rw [htag']
    rcases htag with htag | htag <;> rw [htag] <;> rfl
  let Good (node : Node) : Prop := (allowed node.tag = true ∧ node.Every (Checked strict)) ∧
    ∃ node' ∈ old.list 0, node.tag = node'.tag ∧ node.qualifiers = node'.qualifiers
  have hgood : ∀ node ∈ (Declarations.mergeList (new.list 0)).1, Good node :=
    forall_mergeList (fun a b ha hb hmergeable =>
      ⟨⟨ha.1.1, merge_checked ha.1.2 hb.1.2 hmergeable⟩, ha.2⟩) fun node hnode =>
        ⟨⟨tag_of_mem_list h.stays.checked.root.1 hplace hnode,
          h.stays.checked.child (mem_children_of_mem_list hnode)⟩, h.stays.topLevel node hnode⟩
  have hnearly : (new.withSlot 0 (.many (Declarations.mergeList (new.list 0)).1)).Nearly strict :=
    (nearly_of_every h.stays.checked).withSlot hkind hplace rfl
      (fun node hnode => (hgood node hnode).1) (isComplete_of_holdsStatements hholds)
  have hclosed : ∀ node : Node, node.tag = old.tag → Braces.endsWithOpenIf node = false := by
    intro node heq
    rw [Braces.endsWithOpenIf_eq, heq]
    rcases htag with htag | htag <;> rw [htag]
  have hplain : new.tag ≠ .ifStatement := by
    rw [htag']
    rcases htag with htag | htag <;> rw [htag] <;> decide
  exact
    { steady :=
        ⟨h.steady.toAlike.trans (alike_of_holdsStatements rfl rfl rfl hholds hnearly.grammar),
          by rw [hclosed old rfl]; exact hclosed _ htag'⟩
      stays :=
        { tag := htag'
          checked := hnearly.every_checked hholds (keepsElse_of_ne hplain)
          topLevel := fun node hnode => by
            rw [list_withSlot (lt_length_of_layout h.stays.checked.root.1 hkind)] at hnode
            exact (hgood node hnode).2 } }

theorem merged_of_edited {old current new : Node} {gain : Nat} (h : old.Every (Checked strict))
    (hover : old.Over (Merged strict) current) (hedited : Edited old.tag current new gain) :
    Merged strict old new := by
  have hmerged := merged_of_over h hover
  cases hedited with
  | same _ hsame => rwa [hsame]
  | merged htag _ hnew =>
    rw [hnew]
    exact hmerged.mergeList htag

theorem law (strict : Bool) : editor.Law (Checked strict) (fun (_ : Unit) _ => ())
    (fun _ _ => True) (fun _ _ => True) (fun _ _ => Merged strict) := by
  refine .ofLocal (fun h => (fitsGrammar_iff.mp h.1).1) (fun _ => rfl) (fun _ => rfl)
    fun {node descend s s' change} hnode hdescend hover => ?_
  obtain ⟨change', gain, hrun, hedited⟩ := editing_run node hdescend
  exact ⟨change', s' + gain, hrun, merged_of_edited hnode hover hedited⟩

/-- Merging declarations succeeds on every shader that passes the checks and keeps it so. -/
theorem runs_mergeAll (strict : Bool) : Runs strict mergeAll := by
  intro root _ hroot
  obtain ⟨change, count, hrun, -, -, hmerged⟩ :=
    (law strict).apply (k := ()) (s := 0) hroot trivial
  exact ⟨change, count, hrun, hmerged.stays⟩

/-- Merging declarations keeps printable shaders printable. -/
theorem keepsPrintable_mergeAll : KeepsPrintable mergeAll :=
  (runs_mergeAll true).keepsPrintable

end GlslShrink.Declarations
