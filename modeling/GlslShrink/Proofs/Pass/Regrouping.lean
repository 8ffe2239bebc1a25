import GlslShrink.Printing.Render
import GlslShrink.Proofs.Pass.NormalForms
import GlslShrink.Proofs.Reading.Soundness
import GlslShrink.Proofs.Traversal.Counting

/-!
Merging declarations only regroups declared names. The names are taken apart again by giving each of
them a declaration of its own (`ungrouped`). A merged declaration then stands for what its two parts
stood for (`singles_merge`), so a merged list stands for the list it was merged from, at any depth.
Each merge takes one declaration away (`tally_merge_add_one`), and so the count is the number of
declarations that are missing. The merged list has no mergeable neighbours, and a tree without such
neighbours is left alone (`mergeAll_idle`).
-/

set_option autoImplicit false

namespace GlslShrink.Declarations

open Node

variable {strict : Bool} {node first second current new : Node}

/-! ### One declaration for every name -/

/-- Whether the node declares any number of names of a type that is given by its name. -/
def isPlainTyped (node : Node) : Bool :=
  node.tag == .declaration && (node.child? 0).any (fun type => type.tag == .typeName)

/-- The declarations of one name each that a declaration of a plain type stands for. Any other node
stands for itself, as does a declaration without names. -/
def singles (node : Node) : List Node :=
  if isPlainTyped node ∧ node.list 1 ≠ [] then
    (node.list 1).map fun declarator =>
      .new node.tag node.value node.qualifiers (node.slots.set 1 (.many [declarator]))
  else [node]

def ungroupSlot : Slot Node → Slot Node
  | .many nodes => .many (nodes.flatMap singles)
  | slot => slot

/-- The tree, without marks, with one declaration for every name of a plain type that is declared in
a list of statements or of top-level declarations. -/
def ungrouped : Node → Node :=
  fold fun node slots => .new node.tag node.value node.qualifiers
    (if node.tag = .shader ∨ node.tag = .scope then slots.map ungroupSlot else slots)

theorem ungrouped_eq (node : Node) :
    ungrouped node = .new node.tag node.value node.qualifiers
      (if node.tag = .shader ∨ node.tag = .scope
        then (node.slots.map (Slot.map ungrouped)).map ungroupSlot
        else node.slots.map (Slot.map ungrouped)) :=
  fold_eq _ node

theorem ungrouped_of_over {old : Node}
    (hover : old.Over (fun a b => ungrouped b = ungrouped a) new) :
    ungrouped new = ungrouped old := by
  rw [ungrouped_eq, ungrouped_eq old, hover.tag, hover.value, hover.qualifiers,
    map_of_related hover.slots]

/-! ### Declarations of plain types -/

/-- The name of the type of a declaration. -/
def typeOf (node : Node) : String :=
  ((node.child? 0).map Node.value).getD ""

theorem slots_of_declaration (hgrammar : node.fitsGrammar = true) (htag : node.tag = .declaration) :
    node.value = "" ∧ ∃ type names, node.slots = [.one type, .many names] := by
  obtain ⟨hlayout, -, hvalue, -, -⟩ := fitsGrammar_iff.mp hgrammar
  rw [htag] at hvalue
  rw [fitsLayout, htag] at hlayout
  obtain ⟨first, others, hslots, hfirst, hothers⟩ := Slot.fitAll_cons.mp hlayout
  obtain ⟨second, rest, rfl, hsecond, hrest⟩ := Slot.fitAll_cons.mp hothers
  obtain ⟨type, rfl⟩ := Slot.fits_required.mp hfirst
  obtain ⟨names, rfl⟩ := Slot.fits_list.mp hsecond
  obtain rfl := Slot.fitAll_nil.mp hrest
  exact ⟨beq_iff_eq.mp hvalue, type, names, hslots⟩

theorem slots_of_typeName (hgrammar : node.fitsGrammar = true) (htag : node.tag = .typeName) :
    node.slots = [] ∧ node.qualifiers = [] := by
  obtain ⟨hlayout, -, -, hqualifiers, -⟩ := fitsGrammar_iff.mp hgrammar
  rw [htag] at hqualifiers
  rw [fitsLayout, htag] at hlayout
  exact ⟨Slot.fitAll_nil.mp hlayout, List.isEmpty_iff.mp hqualifiers⟩

/-- A declaration of a plain type that the grammar builds: a type name and at least one name. -/
theorem form_of_isPlain (hgrammar : node.Grammatical) (hplain : isPlain node = true) :
    node.tag = .declaration ∧ node.value = "" ∧
      ∃ type, node.slots = [.one type, .many (node.list 1)] ∧ type.tag = .typeName ∧
        type.slots = [] ∧ type.qualifiers = [] ∧ type.value = typeOf node := by
  simp only [isPlain, Bool.and_eq_true, beq_iff_eq] at hplain
  obtain ⟨⟨htag, -⟩, htype⟩ := hplain
  obtain ⟨hvalue, type, names, hslots⟩ := slots_of_declaration hgrammar.root htag
  have hchild : node.child? 0 = some type := by
    rw [child?_eq_some, hslots]
    rfl
  have hlist : node.list 1 = names := by
    rw [list, hslots]
    rfl
  rw [hchild, Option.any_some, beq_iff_eq] at htype
  obtain ⟨hnone, hqualifiers⟩ :=
    slots_of_typeName (hgrammar.child (mem_children_of_child? hchild)).root htype
  refine ⟨htag, hvalue, type, by rw [hslots, hlist], htype, hnone, hqualifiers, ?_⟩
  rw [typeOf, hchild]
  rfl

theorem singles_ungrouped (hgrammar : node.Grammatical) (hplain : isPlain node = true) :
    singles (ungrouped node) = (node.list 1).map fun name =>
      .declaration node.qualifiers (.typeName (typeOf node)) [ungrouped name] := by
  obtain ⟨htag, hvalue, type, hslots, htype, hnone, hqualifiers, hname⟩ :=
    form_of_isPlain hgrammar hplain
  have htypeName : ungrouped type = .typeName (typeOf node) := by
    rw [ungrouped_eq, htype, hnone, hqualifiers, hname]
    rfl
  have hungrouped : ungrouped node = .declaration node.qualifiers (.typeName (typeOf node))
      ((node.list 1).map ungrouped) := by
    rw [ungrouped_eq, hslots, htag, hvalue, ← htypeName]
    rfl
  have hnames : (node.list 1).map ungrouped ≠ [] :=
    mt List.map_eq_nil_iff.mp (list_ne_nil_of_isPlain hplain)
  rw [hungrouped, singles]
  exact (if_pos ⟨rfl, hnames⟩).trans List.map_map

theorem isPlain_of_mergeable (h : mergeable first second = true) :
    isPlain first = true ∧ isPlain second = true ∧ first.qualifiers = second.qualifiers ∧
      typeOf first = typeOf second := by
  simp only [mergeable, Bool.and_eq_true, beq_iff_eq] at h
  obtain ⟨⟨⟨hfirst, hsecond⟩, hqualifiers⟩, htype⟩ := h
  exact ⟨hfirst, hsecond, hqualifiers, by rw [typeOf, htype, typeOf]⟩

/-- A merged declaration stands for what its two parts stand for. -/
theorem singles_merge (hfirst : first.Every (Checked strict))
    (hsecond : second.Every (Checked strict)) (h : mergeable first second = true) :
    singles (ungrouped (merge first second)) =
      singles (ungrouped first) ++ singles (ungrouped second) := by
  have hgrammatical : ∀ {node : Node}, node.Every (Checked strict) → node.Grammatical :=
    fun hnode => hnode.imp fun _ hchecked => hchecked.1
  have hmerged := hgrammatical (merge_checked hfirst hsecond h)
  have hagain : mergeable (merge first second) second = true := by
    rw [(mergeable_merge h).2, h]
  obtain ⟨hplain, hplain', hqualifiers, htype⟩ := isPlain_of_mergeable h
  obtain ⟨hplainMerged, -, hqualifiersMerged, htypeMerged⟩ := isPlain_of_mergeable hagain
  rw [singles_ungrouped hmerged hplainMerged, singles_ungrouped (hgrammatical hfirst) hplain,
    singles_ungrouped (hgrammatical hsecond) hplain', list_merge h, List.map_append,
    hqualifiersMerged, htypeMerged, hqualifiers, htype]

theorem tally_merge_add_one (hsecond : second.Grammatical) (h : mergeable first second = true) :
    (merge first second).tally (· == .declaration) + 1 =
      first.tally (· == .declaration) + second.tally (· == .declaration) := by
  obtain ⟨hplain, hplain', -, -⟩ := isPlain_of_mergeable h
  obtain ⟨htag, -, type, hslots, htype, hnone, -, -⟩ := form_of_isPlain hsecond hplain'
  have hmerge := tally_withSlot (· == .declaration)
    (slots_of_list (list_ne_nil_of_isPlain hplain)) (.many (first.list 1 ++ second.list 1))
  have hchildren : second.children = type :: second.list 1 := by
    rw [children, hslots]
    simp [Slot.toList]
  have hleaf : type.tally (· == .declaration) = 0 := by
    rw [tally_eq, children, hnone, htype]
    rfl
  have hwhole := tally_eq (· == .declaration) second
  rw [hchildren, tallyAll_cons, hleaf, htag] at hwhole
  simp only [Slot.toList, tallyAll_append, beq_self_eq_true, Bool.toNat_true] at hmerge hwhole
  rw [merge]
  omega

/-! ### Lists -/

/-- A merged list stands for what the list stood for. -/
theorem singles_mergeAfter {nodes : List Node} (hcurrent : current.Every (Checked strict))
    (hnodes : ∀ node ∈ nodes, node.Every (Checked strict)) :
    (mergeAfter current nodes).1.flatMap (fun node => singles (ungrouped node)) =
      (current :: nodes).flatMap (fun node => singles (ungrouped node)) := by
  fun_induction mergeAfter current nodes with
  | case1 current => rfl
  | case2 current node nodes hmergeable merged count heq ih =>
    obtain ⟨hnode, hnodes⟩ := List.forall_mem_cons.mp hnodes
    rw [heq] at ih
    rw [ih (merge_checked hcurrent hnode hmergeable) hnodes, List.flatMap_cons,
      singles_merge hcurrent hnode hmergeable, List.append_assoc, List.flatMap_cons,
      List.flatMap_cons]
  | case3 current node nodes hmergeable merged count heq ih =>
    obtain ⟨hnode, hnodes⟩ := List.forall_mem_cons.mp hnodes
    rw [heq] at ih
    rw [List.flatMap_cons, ih hnode hnodes, List.flatMap_cons (x := current)]

theorem singles_mergeList {nodes : List Node}
    (hnodes : ∀ node ∈ nodes, node.Every (Checked strict)) :
    (mergeList nodes).1.flatMap (fun node => singles (ungrouped node)) =
      nodes.flatMap (fun node => singles (ungrouped node)) := by
  cases nodes with
  | nil => rfl
  | cons node nodes =>
    obtain ⟨hnode, hnodes⟩ := List.forall_mem_cons.mp hnodes
    exact singles_mergeAfter hnode hnodes

/-- The count of a merged list is the number of declarations that are missing. -/
theorem tally_mergeAfter_add (current : Node) {nodes : List Node}
    (hnodes : ∀ node ∈ nodes, node.Grammatical) :
    (mergeAfter current nodes).2 + tallyAll (· == .declaration) (mergeAfter current nodes).1 =
      tallyAll (· == .declaration) (current :: nodes) := by
  fun_induction mergeAfter current nodes with
  | case1 current => exact Nat.zero_add _
  | case2 current node nodes hmergeable merged count heq ih =>
    obtain ⟨hnode, hnodes⟩ := List.forall_mem_cons.mp hnodes
    have hmerge := tally_merge_add_one hnode hmergeable
    have hrest := ih hnodes
    simp only [heq, tallyAll_cons] at hrest ⊢
    omega
  | case3 current node nodes hmergeable merged count heq ih =>
    obtain ⟨-, hnodes⟩ := List.forall_mem_cons.mp hnodes
    have hrest := ih hnodes
    simp only [heq, tallyAll_cons] at hrest ⊢
    omega

theorem tally_mergeList_add {nodes : List Node} (hnodes : ∀ node ∈ nodes, node.Grammatical) :
    (mergeList nodes).2 + tallyAll (· == .declaration) (mergeList nodes).1 =
      tallyAll (· == .declaration) nodes := by
  cases nodes with
  | nil => rfl
  | cons node nodes => exact tally_mergeAfter_add node (List.forall_mem_cons.mp hnodes).2

theorem hasMergeable_eq_false_iff {nodes : List Node} :
    hasMergeable nodes = false ↔
      nodes.IsChain fun first second => mergeable first second = false := by
  fun_induction hasMergeable nodes with
  | case1 first second nodes ih => rw [Bool.or_eq_false_iff, List.isChain_cons_cons, ih]
  | case2 nodes hshort =>
    refine iff_of_true rfl ?_
    rcases nodes with _ | ⟨first, _ | ⟨second, nodes⟩⟩
    · exact .nil
    · exact .singleton first
    · exact absurd rfl (hshort first second nodes)

/-! ### The pass -/

section Edited

variable {tag : Tag} {gain : Nat}

theorem ungrouped_of_edited (htag : current.tag = tag)
    (hbelow : ∀ child ∈ current.children, child.Every (Checked strict))
    (h : Edited tag current new gain) : ungrouped new = ungrouped current := by
  cases h with
  | same _ hsame => rw [hsame]
  | merged hlists hmergeable hmerged =>
    rw [← htag] at hlists
    have hplace := slots_of_list (ne_nil_of_hasMergeable hmergeable)
    have hchecked : ∀ node ∈ current.list 0, node.Every (Checked strict) :=
      fun node hnode => hbelow node (mem_children_of_mem_list hnode)
    -- the merged list stands for what was in its slot, so putting it there changes nothing
    have hget : ((current.slots.map (Slot.map ungrouped)).map ungroupSlot)[0]? =
        some (ungroupSlot (Slot.map ungrouped (.many (mergeList (current.list 0)).1))) := by
      rw [List.getElem?_map, List.getElem?_map, hplace]
      simp only [Option.map_some, Slot.map, ungroupSlot, List.flatMap_map,
        singles_mergeList hchecked]
    obtain ⟨hlength, hget⟩ := List.getElem?_eq_some_iff.mp hget
    have hslots : (new.slots.map (Slot.map ungrouped)).map ungroupSlot =
        (current.slots.map (Slot.map ungrouped)).map ungroupSlot := by
      rw [hmerged, withSlot, withSlots, List.map_set, List.map_set, ← hget, List.set_getElem_self]
    have hnew : new.tag = current.tag ∧ new.value = current.value ∧
        new.qualifiers = current.qualifiers := by
      rw [hmerged]
      exact ⟨rfl, rfl, rfl⟩
    rw [ungrouped_eq, ungrouped_eq current, hnew.1, hnew.2.1, hnew.2.2, hslots, if_pos hlists,
      if_pos hlists]

theorem gain_of_edited (hbelow : ∀ child ∈ current.children, child.Grammatical)
    (h : Edited tag current new gain) :
    gain + new.tally (· == .declaration) = current.tally (· == .declaration) := by
  cases h with
  | same _ hsame => rw [hsame, Nat.zero_add]
  | merged _ hmergeable hmerged =>
    have hslot := tally_withSlot (· == .declaration)
      (slots_of_list (ne_nil_of_hasMergeable hmergeable)) (.many (mergeList (current.list 0)).1)
    have hgrammatical : ∀ node ∈ current.list 0, node.Grammatical :=
      fun node hnode => hbelow node (mem_children_of_mem_list hnode)
    have hgain := tally_mergeList_add hgrammatical
    rw [← hmerged, Slot.toList, Slot.toList] at hslot
    omega

end Edited

theorem regrouping : editor.Law (Checked false) (fun (_ : Unit) _ => ()) (fun _ _ => True)
    (fun _ _ => True)
    (fun _ _ old new => Merged false old new ∧ ungrouped new = ungrouped old) := by
  refine .ofLocal (fun h => (fitsGrammar_iff.mp h.1).1) (fun _ => rfl) (fun _ => rfl)
    fun {node _ _ s' _} hnode hdescend hover => ?_
  obtain ⟨change', gain, hrun, hedited⟩ := editing_run node hdescend
  have hmerged := hover.imp_mem fun _ _ _ h => h.1
  have hchecked := (merged_of_over hnode hmerged).stays.checked
  have hungrouped := ungrouped_of_over (hover.imp_mem fun _ _ _ h => h.2)
  refine ⟨change', s' + gain, hrun, merged_of_edited hnode hmerged hedited, ?_⟩
  exact (ungrouped_of_edited hover.tag (fun _ hchild => hchecked.child hchild) hedited).trans
    hungrouped

theorem accounts {root : Node} (hroot : root.Every (Checked false)) :
    editor.Accounts (· == .declaration) root := by
  refine (law false).accounts (fun _ => rfl) (fun _ => rfl) ?_ hroot
  intro node descend s s' change hnode hdescend hover
  obtain ⟨change', gain, hrun, hedited⟩ := editing_run node hdescend
  have hchecked := (merged_of_over hnode hover).stays.checked
  have hgain := gain_of_edited
    (fun _ hchild => (hchecked.child hchild).imp fun _ h => h.1) hedited
  exact ⟨change', s' + gain, hrun, by omega⟩

/-- A tree without mergeable neighbours is returned as the very same one, with nothing counted. -/
theorem mergeAll_idle {root : Node} (hfits : root.Every (fun node => node.fitsLayout = true))
    (h : root.Every FullyMerged) : mergeAll root = .ok (.unchanged, 0) := by
  have hidle : editor.Idle root := by
    refine Editor.idle_of_local (fun h => h.1) (fun _ => rfl) (fun _ => rfl) ?_ (hfits.and h)
    intro node descend count hnode hdescend
    simp only [editor]
    rw [run_bind hdescend]
    by_cases htag : node.tag = .shader ∨ node.tag = .scope
    · simp only [if_pos htag, mergeWithin, Change.result, hnode.2 htag]
      rfl
    · simp only [if_neg htag]
      rfl
  exact hidle.apply 0

/-! ### Whole trees -/

/-- The second tree declares what the first one declares, one name after the other, in `count` fewer
declarations, and no two neighbours in it can be merged. -/
structure Regroups (old new : Node) (count : Nat) : Prop where
  same : ungrouped new = ungrouped old
  apart : new.Every fun node => node.tag = .shader ∨ node.tag = .scope →
    (node.list 0).IsChain fun first second => mergeable first second = false
  count : count + new.tally (· == .declaration) = old.tally (· == .declaration)

/-- Merging the declarations of a tree that was read succeeds and only regroups the declared names.
Merging again changes and counts nothing. -/
theorem mergeAll_regroups {source : String} {rule : StartRule} {tree root : Node}
    (hread : parse source rule = .ok tree) (hshape : root.sameShape tree = true) :
    ∃ change count, mergeAll root = .ok (change, count) ∧
      Regroups root (change.result root) count ∧
      mergeAll (change.result root) = .ok (.unchanged, 0) := by
  have hroot : root.Every (Checked false) := by
    rw [← every_bare checked_bare, (sameShape_iff _ _).mp hshape, every_bare checked_bare]
    exact (parse_formed hread).sound.imp fun _ => checked_false_iff.mpr
  have hfits : ∀ {node : Node}, node.Every (Checked false) →
      node.Every (fun node => node.fitsLayout = true) :=
    fun h => h.imp fun _ hnode => (fitsGrammar_iff.mp hnode.1).1
  obtain ⟨change, count, hrun, -, -, hmerged, hsame⟩ :=
    regrouping.apply (k := ()) (s := 0) hroot trivial
  have hfully := (mergesFully_of_mergeAll (hfits hroot) hrun).merged
  have hcount := (accounts hroot).apply hrun
  refine ⟨change, count, hrun, ?_, mergeAll_idle (hfits hmerged.stays.checked) hfully⟩
  exact ⟨hsame, hfully.imp fun _ h htag => hasMergeable_eq_false_iff.mp (h htag),
    hcount.trans (Nat.zero_add _)⟩

/-- Uniforms, members of a structure, and locals at two depths. -/
def nestedLocals : String :=
  "uniform int a;uniform int b;struct S{int x;int y;};" ++
    "void main(){int c=1;int d=c,e;for(int i=0;i<d;i++){int j;int k=j;int l;}int m;}"

/-- Uniforms and locals are merged in their order, with their initial values. Members of a structure
and the header of a loop stay as they are. -/
theorem mergeAll_regroups_nestedLocals :
    ∃ tree, parse nestedLocals .shader = .ok tree ∧ (tree.numbered 0).sameShape tree = true ∧
      ∃ change, mergeAll (tree.numbered 0) = .ok (change, 4) ∧
        (change.result (tree.numbered 0)).render "" =
          "uniform int a,b;struct S{int x;int y;};" ++
            "void main(){int c=1,d=c,e;for(int i=0;i<d;i++){int j,k=j,l;}int m;}" ∧
        Regroups (tree.numbered 0) (change.result (tree.numbered 0)) 4 ∧
        mergeAll (change.result (tree.numbered 0)) = .ok (.unchanged, 0) := by
  have hok : (parse nestedLocals .shader).toOption.any (fun tree =>
      (tree.numbered 0).sameShape tree &&
        (mergeAll (tree.numbered 0)).toOption.any fun result => result.2 == 4 &&
          (result.1.result (tree.numbered 0)).render "" ==
            "uniform int a,b;struct S{int x;int y;};" ++
              "void main(){int c=1,d=c,e;for(int i=0;i<d;i++){int j,k=j,l;}int m;}") = true := by
    decide +kernel
  obtain ⟨tree, hread, htree⟩ := exists_ok_of_any hok
  obtain ⟨hshape, hmerged⟩ := Bool.and_eq_true_iff.mp htree
  obtain ⟨result, hresult, hfacts⟩ := exists_ok_of_any hmerged
  rw [Bool.and_eq_true, beq_iff_eq, beq_iff_eq] at hfacts
  obtain ⟨change, count, hrun, hregroups⟩ := mergeAll_regroups hread hshape
  obtain rfl : result = (change, count) := Except.ok.inj (hresult.symm.trans hrun)
  obtain ⟨rfl, htext⟩ := hfacts
  exact ⟨tree, hread, hshape, change, hrun, htext, hregroups⟩

end GlslShrink.Declarations
