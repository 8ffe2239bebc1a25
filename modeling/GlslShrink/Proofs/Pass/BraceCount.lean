import GlslShrink.Proofs.Pass.BraceNormalForm
import GlslShrink.Proofs.Reading.Soundness
import GlslShrink.Proofs.Traversal.Counting

/-!
What the number of removed braces counts. A pair that is taken off adds one to it, but a pair that is
put in, so that an `else` stays with its `if`, takes nothing back. The number is therefore that of
the blocks that are gone and of the pairs put in together (`accounts`), and it is how many
blocks fewer there are exactly if no pair is put in.

Where a pair is put in depends on what the pass makes of the branch before the `else`. That is a
function of the categories of its nodes (`outcome`): the pass gives the same categories whatever was
counted before it came to a node (`reduced_skeleton`).
-/

set_option autoImplicit false

namespace GlslShrink.Braces

open Node

variable {node statement inner current new : Node} {how : Node → Trim} {i : Nat}

/-! ### One node as a function -/

/-- The node with the statement in place `i` trimmed. -/
def trimmedAt (how : Node → Trim) (i : Nat) (node : Node) : Node :=
  match (node.child? i).bind fun statement => (how statement).replacement with
  | some other => node.withSlot i (.one other)
  | none => node

/-- The node with the blocks among its statements dissolved. -/
def splicedAt (node : Node) : Node :=
  if (node.list 0).any dissolves then node.withSlot 0 (.many (spliced (node.list 0))) else node

/-- What the pass makes of a node when it is done with the children. -/
def tidied (node : Node) : Node :=
  match node.tag with
  | .forLoop | .whileLoop | .doWhileLoop => trimmedAt trim (bodyPlace node.tag) node
  | .ifStatement =>
    trimmedAt trim 2 (trimmedAt (if (node.child? 2).isSome then trimBeforeElse else trim) 1 node)
  | .scope => splicedAt node
  | _ => node

theorem Trimmed.eq_trimmedAt (h : Trimmed how current i new) :
    new = trimmedAt how i current := by
  unfold trimmedAt
  cases h with
  | kept hkept =>
    have hnone : ((current.child? i).bind fun statement => (how statement).replacement) = none :=
      Option.bind_eq_none_iff.mpr hkept
    rw [hnone]
  | replaced hchild hother => rw [hchild, Option.bind_some, hother]

theorem Spliced.eq_splicedAt (h : Spliced current new) : new = splicedAt current := by
  unfold splicedAt
  cases h with
  | kept hnone => rw [hnone, if_neg Bool.false_ne_true]
  | dissolved hsome => rw [if_pos hsome]

theorem eq_tidied_of_edited (h : Edited current.tag current new) : new = tidied current := by
  unfold tidied
  cases h with
  | body htag htrimmed =>
    have heq := htrimmed.eq_trimmedAt
    rcases htag with htag | htag | htag <;> simpa only [htag] using heq
  | arms htag hfirst hsecond =>
    obtain rfl := hfirst.eq_trimmedAt
    simpa only [htag] using hsecond.eq_trimmedAt
  | block htag hspliced => simpa only [htag] using hspliced.eq_splicedAt
  | same hloop hif hscope hsame => split <;> simp_all

/-! ### Categories -/

theorem trimmedAt_skeleton
    (hhow : ∀ node : Node, (how node.skeleton).replacement = (how node).replacement.map skeleton)
    (i : Nat) (node : Node) :
    (trimmedAt how i node.skeleton).skeleton = (trimmedAt how i node).skeleton := by
  have hother : ((node.skeleton.child? i).bind fun statement => (how statement).replacement) =
      ((node.child? i).bind fun statement => (how statement).replacement).map skeleton := by
    rw [child?_skeleton]
    cases node.child? i with
    | none => rfl
    | some statement => exact hhow statement
  rw [trimmedAt, trimmedAt, hother]
  cases (node.child? i).bind fun statement => (how statement).replacement with
  | none => exact skeleton_skeleton node
  | some other =>
    simp only [Option.map_some, skeleton_withSlot, skeleton_skeleton, skeleton_tag, Slot.map]

theorem spliced_skeleton (statements : List Node) :
    spliced (statements.map skeleton) = (spliced statements).map skeleton := by
  rw [spliced, spliced, List.flatMap_map, List.map_flatMap]
  refine List.flatMap_congr fun statement _ => ?_
  rw [dissolves_skeleton, list_skeleton]
  split <;> rfl

theorem splicedAt_skeleton (node : Node) :
    (splicedAt node.skeleton).skeleton = (splicedAt node).skeleton := by
  have hany : (node.skeleton.list 0).any dissolves = (node.list 0).any dissolves := by
    simp only [list_skeleton, List.any_map, Function.comp_def, dissolves_skeleton]
  have hidem : skeleton ∘ skeleton = skeleton := funext skeleton_skeleton
  rw [splicedAt, splicedAt, hany]
  split
  · rw [skeleton_withSlot, skeleton_withSlot, skeleton_skeleton, skeleton_tag, list_skeleton,
      spliced_skeleton, Slot.map, List.map_map, hidem, Slot.map]
  · exact skeleton_skeleton node

theorem tidied_skeleton (node : Node) : (tidied node.skeleton).skeleton = (tidied node).skeleton := by
  have helse : (node.skeleton.child? 2).isSome = (node.child? 2).isSome := by
    rw [child?_skeleton, Option.isSome_map]
  unfold tidied
  rw [skeleton_tag, helse]
  split
  · exact trimmedAt_skeleton trim_skeleton _ node
  · exact trimmedAt_skeleton trim_skeleton _ node
  · exact trimmedAt_skeleton trim_skeleton _ node
  · -- After the first branch neither side is a skeleton, but they have the same one.
    rw [← trimmedAt_skeleton trim_skeleton 2, ← trimmedAt_skeleton trim_skeleton 2 (trimmedAt _ _ node)]
    congr 2
    split
    · exact trimmedAt_skeleton trimBeforeElse_skeleton 1 node
    · exact trimmedAt_skeleton trim_skeleton 1 node
  · exact splicedAt_skeleton node
  · exact skeleton_skeleton node

/-- The categories of the nodes that the pass makes of a tree. -/
def outcome : Node → Node :=
  fold fun node slots => (tidied (.new node.tag "" [] slots)).skeleton

theorem outcome_eq (node : Node) :
    outcome node = (tidied (.new node.tag "" [] (node.slots.map (Slot.map outcome)))).skeleton :=
  fold_eq _ node

/-- A node whose children became what the pass makes of them becomes what it makes of the node. -/
theorem skeleton_of_edited
    (hover : node.Over (fun old new => new.skeleton = outcome old) current)
    (h : Edited node.tag current new) : new.skeleton = outcome node := by
  rw [← hover.tag] at h
  have hcurrent : current.skeleton =
      .new node.tag "" [] (node.slots.map (Slot.map outcome)) := by
    rw [skeleton_eq, hover.tag, map_of_related hover.slots]
  rw [eq_tidied_of_edited h, ← tidied_skeleton, hcurrent, outcome_eq]

/-- What becomes of a node matches its layouts and has the categories that the pass gives it. -/
structure Becomes (old new : Node) : Prop where
  shaped : new.IsWellShaped
  skeleton : new.skeleton = outcome old

theorem becomes : editor.Law (fun node => node.fitsLayout = true) (fun (_ : Unit) _ => ())
    (fun _ _ => True) (fun _ _ => True) (fun _ _ => Becomes) := by
  refine .ofLocal (fun h => h) (fun _ => rfl) (fun _ => rfl)
    fun {node _ _ _ change} hnode hdescend hover => ?_
  obtain ⟨change', count, hrun, hedited⟩ := editing_run node hdescend
  have hcurrent := isWellShaped_of_over hnode.root (hover.imp_mem fun _ _ _ h => h.shaped)
  exact ⟨change', count, hrun, isWellShaped_of_edited hedited hcurrent,
    skeleton_of_edited (hover.imp_mem fun _ _ _ h => h.skeleton) hedited⟩

/-! ### Pairs put in -/

/-- What removing braces makes of a tree. -/
def reduced (root : Node) : Node :=
  match reduce root with
  | .ok (change, _) => change.result root
  | .error _ => root

/-- Whether the node is an `if` with an `else` whose first branch, with the braces in it removed, ends
with an `if` that would take the `else`. -/
def needsPair (node : Node) : Bool :=
  node.tag == .ifStatement && (node.child? 2).isSome &&
    (node.child? 1).any fun branch => endsWithOpenIf (reduced branch)

theorem reduced_skeleton (h : node.IsWellShaped) : (reduced node).skeleton = outcome node := by
  obtain ⟨change, count, hrun, -, -, hbecomes⟩ := becomes.apply (k := ()) (s := 0) h trivial
  have hreduce : reduce node = .ok (change, count) := hrun
  rw [reduced, hreduce]
  exact hbecomes.skeleton

/-- Whether a pair is needed shows when the branches have become what the pass makes of them. -/
theorem needsPair_of_over (hnode : node.IsWellShaped) (hover : node.Over Becomes current) :
    needsPair node = (node.tag == .ifStatement && (current.child? 2).isSome &&
      (current.child? 1).any endsWithOpenIf) := by
  have hslots : current.slots.map (Slot.map skeleton) = node.slots.map (Slot.map outcome) :=
    map_of_related (hover.imp_mem fun _ _ _ h => h.skeleton).slots
  have hchild : ∀ i, (current.child? i).map skeleton = (node.child? i).map outcome := fun i => by
    rw [child?, ← Slot.childAt_map, hslots, Slot.childAt_map, child?]
  have helse : (current.child? 2).isSome = (node.child? 2).isSome := by
    rw [← Option.isSome_map (f := skeleton), hchild, Option.isSome_map]
  have hcurrent : (current.child? 1).any endsWithOpenIf =
      ((current.child? 1).map skeleton).any endsWithOpenIf := by
    simp only [Option.any_map, endsWithOpenIf_skeleton]
  have hbranch : ((node.child? 1).any fun branch => endsWithOpenIf (reduced branch)) =
      ((node.child? 1).map outcome).any endsWithOpenIf := by
    cases hsome : node.child? 1 with
    | none => rfl
    | some branch =>
      have hshaped : branch.IsWellShaped := hnode.child (mem_children_of_child? hsome)
      change endsWithOpenIf (reduced branch) = endsWithOpenIf (outcome branch)
      rw [← reduced_skeleton hshaped, endsWithOpenIf_skeleton]
  rw [needsPair, hbranch, helse, hcurrent, hchild]

/-! ### What is counted at a node -/

theorem children_of_block (htag : node.tag = .scope) (hfits : node.fitsLayout = true) :
    node.children = node.list 0 := by
  rw [fitsLayout, htag] at hfits
  rw [children, list]
  generalize node.slots = slots at hfits ⊢
  cases slots with
  | nil => cases hfits
  | cons slot slots =>
    cases slots with
    | nil =>
      cases slot with
      | absent => cases hfits
      | one => cases hfits
      | many nodes => exact List.append_nil nodes
    | cons => simp [Tag.layout, Slot.fitAll] at hfits

theorem tally_block (htag : node.tag = .scope) (hfits : node.fitsLayout = true) :
    node.tally (· == .scope) = tallyAll (· == .scope) (node.list 0) + 1 := by
  rw [tally_eq, children_of_block htag hfits, htag]
  rfl

/-- What is removed from a statement, and one more where the test says so, is what its replacement
lacks. -/
def Gains (how : Node → Trim) (adds : Node → Bool) : Prop :=
  ∀ {statement : Node}, statement.IsWellShaped →
    (how statement).removed + ((how statement).replacement.getD statement).tally (· == .scope) =
      statement.tally (· == .scope) + (adds statement).toNat

theorem tally_unwrapped_block (h : statement.IsWellShaped)
    (hinner : unwrapped? statement = some inner) :
    inner.tally (· == .scope) + 1 = statement.tally (· == .scope) := by
  obtain ⟨htag, ⟨hempty, rfl⟩ | hlist⟩ := unwrapped?_cases hinner
  · rw [tally_block htag h.root, hempty]
    rfl
  · rw [tally_block htag h.root, hlist, tallyAll_cons, tallyAll_nil]

theorem gains_trim : Gains trim fun _ => false := by
  intro statement hstatement
  unfold trim
  cases hinner : unwrapped? statement with
  | none => exact Nat.add_comm _ _
  | some inner =>
    have htally := tally_unwrapped_block hstatement hinner
    simp only [Option.getD_some, Bool.toNat_false]
    omega

/-- Before an `else` a pair is put in around a statement that ends with an open `if`. -/
theorem gains_trimBeforeElse : Gains trimBeforeElse endsWithOpenIf := by
  intro statement hstatement
  have htrim := gains_trim hstatement
  rw [trimBeforeElse]
  by_cases htag : statement.tag = .scope
  · -- A block may hold an open `if` but does not end with it: its braces stay, and none come in.
    rw [endsWithOpenIf_of_scope htag, if_pos htag]
    split
    · exact Nat.zero_add _
    · exact htrim
  · rw [unwrapped?_of_ne_scope htag, Option.getD_none, if_neg htag]
    cases endsWithOpenIf statement with
    | true =>
      rw [if_pos rfl, Option.getD_some, tally_eq]
      change 0 + (tallyAll (· == .scope) [statement] + 1) = _
      rw [tallyAll_cons, tallyAll_nil]
      simp only [Bool.toNat_true]
      omega
    | false =>
      rw [if_neg Bool.false_ne_true]
      exact htrim

theorem tally_spliced_blocks {statements : List Node}
    (h : ∀ statement ∈ statements, statement.IsWellShaped) :
    statements.countP dissolves + tallyAll (· == .scope) (spliced statements) =
      tallyAll (· == .scope) statements := by
  induction statements with
  | nil => rfl
  | cons statement statements ih =>
    obtain ⟨hstatement, hstatements⟩ := List.forall_mem_cons.mp h
    have hrest := ih hstatements
    rw [spliced] at hrest
    rw [spliced, List.flatMap_cons, tallyAll_append, tallyAll_cons, List.countP_cons]
    split
    · rename_i hdissolves
      have htally := tally_block (dissolves_iff.mp hdissolves).1 hstatement.root
      omega
    · rw [tallyAll_cons, tallyAll_nil]
      omega

section Runs

variable {change change' : Change} {s s' : Nat}

theorem trimmed_of_trimChild (hrun : trimChild how node i change s = (.ok change', s')) :
    Trimmed how (change.result node) i (change'.result node) := by
  obtain ⟨_, _, hrun', htrimmed⟩ := trimChild_run how node i change s
  cases hrun'.symm.trans hrun
  exact htrimmed

theorem trimChild_gains {adds : Node → Bool} (hgains : Gains how adds)
    (hshaped : (change.result node).IsWellShaped)
    (hrun : trimChild how node i change s = (.ok change', s')) :
    s' + (change'.result node).tally (· == .scope) =
      s + (change.result node).tally (· == .scope) +
        (((change.result node).child? i).any adds).toNat := by
  cases hchild : (change.result node).child? i with
  | none =>
    cases (trimChild_of_none hchild s).symm.trans hrun
    rfl
  | some statement =>
    have hgain := hgains (hshaped.child (mem_children_of_child? hchild))
    have heq := (trimChild_eq hchild s).symm.trans hrun
    cases hother : (how statement).replacement with
    | none =>
      rw [hother] at heq hgain
      cases heq
      simp only [Option.getD_none, Option.any_some, Option.elim_none] at hgain ⊢
      omega
    | some other =>
      rw [hother] at heq hgain
      cases heq
      have hslot := tally_withSlot (· == .scope) (child?_eq_some.mp hchild) (.one other)
      simp only [Slot.toList, tallyAll_cons, tallyAll_nil] at hslot
      simp only [Option.getD_some, Option.any_some, Option.elim_some, Change.result] at hgain hslot ⊢
      omega

theorem trimChild_trim_gains (hshaped : (change.result node).IsWellShaped)
    (hrun : trimChild trim node i change s = (.ok change', s')) :
    s' + (change'.result node).tally (· == .scope) =
      s + (change.result node).tally (· == .scope) := by
  have hgain := trimChild_gains gains_trim hshaped hrun
  have hnone : (((change.result node).child? i).any fun _ => false) = false := by
    cases (change.result node).child? i <;> rfl
  rwa [hnone] at hgain

theorem trimBranches_gains (hshaped : (change.result node).IsWellShaped)
    (hrun : trimBranches node change s = (.ok change', s')) :
    s' + (change'.result node).tally (· == .scope) =
      s + (change.result node).tally (· == .scope) +
        (((change.result node).child? 2).isSome &&
          ((change.result node).child? 1).any endsWithOpenIf).toNat := by
  rw [trimBranches] at hrun
  obtain ⟨change₁, s₁, hfirst, hsecond⟩ := run_bind_inv hrun
  have htrimmed := trimmed_of_trimChild hfirst
  cases helse : ((change.result node).child? 2).isSome with
  | true =>
    rw [helse, if_pos rfl] at hfirst htrimmed
    have hmiddle := htrimmed.isWellShaped isWellShaped_trimBeforeElse hshaped
    rw [trimChild_trim_gains hmiddle hsecond, trimChild_gains gains_trimBeforeElse hshaped hfirst,
      Bool.true_and]
  | false =>
    rw [helse, if_neg Bool.false_ne_true] at hfirst htrimmed
    have hmiddle := htrimmed.isWellShaped isWellShaped_trim hshaped
    rw [trimChild_trim_gains hmiddle hsecond, trimChild_trim_gains hshaped hfirst, Bool.false_and]
    rfl

theorem splice_gains (hshaped : (change.result node).IsWellShaped)
    (hrun : splice node change s = (.ok change', s')) :
    s' + (change'.result node).tally (· == .scope) =
      s + (change.result node).tally (· == .scope) := by
  unfold splice at hrun
  by_cases hany : ((change.result node).list 0).any dissolves = true
  · simp only [if_pos hany] at hrun
    cases hrun
    obtain ⟨_, hmem, -⟩ := List.any_eq_true.mp hany
    have hslot := tally_withSlot (· == .scope) (slots_of_list (List.ne_nil_of_mem hmem))
      (.many (spliced ((change.result node).list 0)))
    have htally := tally_spliced_blocks fun statement hstatement =>
      hshaped.child (mem_children_of_mem_list (i := 0) hstatement)
    simp only [Slot.toList, Change.result] at hslot htally ⊢
    omega
  · simp only [if_neg hany] at hrun
    cases hrun
    rfl

/-- A node counts the blocks that it removes, and does not count the pair that it may put in. -/
theorem editing_gains {descend : Walk Nat Change} {s'' : Nat}
    (hdescend : descend s = (.ok change, s')) (hshaped : (change.result node).IsWellShaped)
    (hrun : editor.editing node descend s = (.ok (some change'), s'')) :
    s'' + (change'.result node).tally (· == .scope) =
      s' + (change.result node).tally (· == .scope) +
        (node.tag == .ifStatement && ((change.result node).child? 2).isSome &&
          ((change.result node).child? 1).any endsWithOpenIf).toNat := by
  by_cases hif : node.tag = .ifStatement
  · rw [editing_if descend hif, run_bind hdescend] at hrun
    obtain ⟨_, _, hbranches, hrest⟩ := run_bind_inv hrun
    cases hrest
    rw [trimBranches_gains hshaped hbranches, hif, beq_self_eq_true, Bool.true_and]
  rw [beq_eq_false_iff_ne.mpr hif, Bool.false_and, Bool.false_and, Bool.toNat_false, Nat.add_zero]
  by_cases hloop : node.tag = .forLoop ∨ node.tag = .whileLoop ∨ node.tag = .doWhileLoop
  · rw [editing_loop descend hloop, run_bind hdescend] at hrun
    obtain ⟨_, _, htrim, hrest⟩ := run_bind_inv hrun
    cases hrest
    exact trimChild_trim_gains hshaped htrim
  by_cases hscope : node.tag = .scope
  · rw [editing_scope descend hscope, run_bind hdescend] at hrun
    obtain ⟨_, _, hsplice, hrest⟩ := run_bind_inv hrun
    cases hrest
    exact splice_gains hshaped hsplice
  · rw [editing_other descend hloop hif hscope, run_bind hdescend] at hrun
    cases hrun
    rfl

end Runs

/-! ### Whole trees -/

theorem accounts {root : Node} (hroot : root.IsWellShaped) :
    editor.AccountsWith (· == .scope) needsPair root := by
  refine becomes.accountsWith (fun _ => rfl) (fun _ => rfl) ?_ hroot
  intro node descend s s' change hnode hdescend hover
  obtain ⟨change', count, hrun, -⟩ := editing_run node hdescend
  have hshaped := isWellShaped_of_over hnode.root (hover.imp_mem fun _ _ _ h => h.shaped)
  refine ⟨change', count, hrun, ?_⟩
  rw [editing_gains hdescend hshaped hrun, needsPair_of_over hnode hover]

/-- The braces counted in what was read are those that are gone and those that were put in. So they
are as many as there are blocks fewer exactly if no pair had to be put in. -/
theorem reduce_counts {source : String} {rule : StartRule} {tree : Node}
    (hread : parse source rule = .ok tree) :
    ∃ change count, reduce tree = .ok (change, count) ∧
      count + (change.result tree).tally (· == .scope) =
        tree.tally (· == .scope) + tree.preorder.countP needsPair ∧
      (count + (change.result tree).tally (· == .scope) = tree.tally (· == .scope) ↔
        tree.Every fun node => needsPair node = false) := by
  have hshaped : tree.IsWellShaped :=
    (parse_formed hread).sound.imp fun _ h => (fitsGrammar_iff.mp h.1).1
  obtain ⟨change, count, hrun, -⟩ := becomes.apply (k := ()) (s := 0) hshaped trivial
  have hcount := (accounts hshaped).apply hrun
  rw [Nat.zero_add] at hcount
  refine ⟨change, count, hrun, hcount, ?_⟩
  rw [hcount, Nat.add_eq_left, List.countP_eq_zero]
  simp only [Bool.not_eq_true]
  rfl

/-- The loop and the inner block lose their braces, and the loop gets a pair around it. -/
theorem reduce_counts_loop_before_else :
    ∃ tree, parse "void main(){if(a)for(;;){if(b)c;}else{{d;}e;}}" .shader = .ok tree ∧
      tree.tally (· == .scope) = 4 ∧ tree.preorder.countP needsPair = 1 ∧
      ∃ change count, reduce tree = .ok (change, count) ∧
        count + (change.result tree).tally (· == .scope) =
          tree.tally (· == .scope) + tree.preorder.countP needsPair ∧
        (count + (change.result tree).tally (· == .scope) = tree.tally (· == .scope) ↔
          tree.Every fun node => needsPair node = false) := by
  have hok : (parse "void main(){if(a)for(;;){if(b)c;}else{{d;}e;}}" .shader).toOption.any
      (fun tree => tree.tally (· == .scope) == 4 && tree.preorder.countP needsPair == 1) = true := by
    decide +kernel
  obtain ⟨tree, hread, hfacts⟩ := exists_ok_of_any hok
  rw [Bool.and_eq_true, beq_iff_eq, beq_iff_eq] at hfacts
  exact ⟨tree, hread, hfacts.1, hfacts.2, reduce_counts hread⟩

/-- One pair is taken off the loop and one is put around it: a pair is counted, and there are as many
blocks as before. -/
theorem exists_counted_without_loss :
    ∃ tree change, parse "void main(){if(a)for(;;){if(b)c;}else d;}" .shader = .ok tree ∧
      reduce tree = .ok (change, 1) ∧
      tree.tally (· == .scope) = 2 ∧ (change.result tree).tally (· == .scope) = 2 := by
  have hok : (parse "void main(){if(a)for(;;){if(b)c;}else d;}" .shader).toOption.any (fun tree =>
      tree.tally (· == .scope) == 2 && (reduce tree).toOption.any fun result =>
        result.2 == 1 && (result.1.result tree).tally (· == .scope) == 2) = true := by
    decide +kernel
  obtain ⟨tree, hread, hfacts⟩ := exists_ok_of_any hok
  rw [Bool.and_eq_true, beq_iff_eq] at hfacts
  obtain ⟨⟨change, count⟩, hrun, hresult⟩ := exists_ok_of_any hfacts.2
  rw [Bool.and_eq_true, beq_iff_eq, beq_iff_eq] at hresult
  obtain ⟨rfl, hblocks⟩ := hresult
  exact ⟨tree, change, hread, hrun, hfacts.1, hblocks⟩

end GlslShrink.Braces
