import GlslShrink.Proofs.Pass.DeadFunctions
import GlslShrink.Proofs.Pass.Declarations
import GlslShrink.Proofs.Tree.Skeleton

/-!
What merging declarations and removing functions leave alone, and how they change the number of
functions and declarations. A pass that finds nothing to do gives a tree of the same shape: a shader
whose functions are all reached (`DeadFunctions.AllReached`), a tree whose lists have no mergeable
neighbours (`Declarations.FullyMerged`). Otherwise it leaves fewer functions and declarations than
there were (`Node.Dwindles`).
-/

set_option autoImplicit false

namespace GlslShrink

open Node

/-- Whether nodes of this category are functions or declarations. -/
def Tag.declares : Tag → Bool
  | functionDefinition | functionPrototype | declaration => true
  | _ => false

/-- The tree keeps its shape if the condition holds, and loses functions or declarations if it does
not. -/
structure Node.Dwindles (rests : Prop) (old new : Node) : Prop where
  fixed : rests → new.bare = old.bare
  less : ¬rests → new.tally Tag.declares < old.tally Tag.declares

theorem Node.Dwindles.le {rests : Prop} {old new : Node} (h : old.Dwindles rests new) :
    new.tally Tag.declares ≤ old.tally Tag.declares := by
  by_cases hrests : rests
  · exact Nat.le_of_eq (tally_of_bare Tag.declares (h.fixed hrests))
  · exact Nat.le_of_lt (h.less hrests)

/-! ### Merging declarations -/

namespace Declarations

/-- A list of statements or of top-level declarations has no neighbours that can be merged. -/
def FullyMerged (node : Node) : Prop :=
  node.tag = .shader ∨ node.tag = .scope → hasMergeable (node.list 0) = false

theorem mergeable_bare (first second : Node) :
    mergeable first.bare second.bare = mergeable first second := by
  simp [mergeable, isPlain, list_bare, child?_bare, Option.any_map, Function.comp_def]

theorem ne_nil_of_hasMergeable {nodes : List Node} (h : hasMergeable nodes = true) : nodes ≠ [] := by
  rintro rfl
  cases h

theorem hasMergeable_bare (nodes : List Node) :
    hasMergeable (nodes.map bare) = hasMergeable nodes := by
  fun_induction hasMergeable nodes with
  | case1 first second nodes ih =>
    rw [List.map_cons] at ih
    rw [List.map_cons, List.map_cons, hasMergeable, mergeable_bare, ih]
  | case2 nodes hshort =>
    match nodes, hshort with
    | [], _ => rfl
    | [_], _ => rfl
    | first :: second :: nodes, hshort => exact absurd rfl (hshort first second nodes)

theorem fullyMerged_bare (node : Node) : FullyMerged node.bare ↔ FullyMerged node := by
  rw [FullyMerged, FullyMerged, bare_tag, list_bare, hasMergeable_bare]

theorem tally_merge {first second : Node} (h : mergeable first second = true) :
    (merge first second).tally Tag.declares <
      first.tally Tag.declares + second.tally Tag.declares := by
  simp only [mergeable, isPlain, Bool.and_eq_true, beq_iff_eq, Bool.not_eq_true'] at h
  obtain ⟨⟨⟨⟨⟨-, hnames⟩, -⟩, ⟨htag, -⟩, -⟩, -⟩, -⟩ := h
  have hslot := slots_of_list (List.isEmpty_eq_false_iff.mp hnames)
  have hmerge := tally_withSlot Tag.declares hslot
    (.many (first.list 1 ++ second.list 1))
  have hsecond := tallyAll_list_le Tag.declares second 1
  rw [Slot.toList, Slot.toList, tallyAll_append] at hmerge
  rw [htag] at hsecond
  simp only [Tag.declares, Bool.toNat_true] at hsecond
  rw [merge]
  omega

theorem tally_mergeAfter (current : Node) (nodes : List Node) :
    tallyAll Tag.declares (mergeAfter current nodes).1 ≤
        tallyAll Tag.declares (current :: nodes) ∧
      (hasMergeable (current :: nodes) = true →
        tallyAll Tag.declares (mergeAfter current nodes).1 <
          tallyAll Tag.declares (current :: nodes)) := by
  fun_induction mergeAfter current nodes with
  | case1 current => exact ⟨Nat.le_refl _, fun h => by cases h⟩
  | case2 current node nodes hmergeable merged count heq ih =>
    have hmerge := tally_merge hmergeable
    simp only [heq, tallyAll_cons] at ih ⊢
    omega
  | case3 current node nodes hmergeable merged count heq ih =>
    simp only [heq, tallyAll_cons] at ih ⊢
    refine ⟨by omega, fun hmore => ?_⟩
    rw [hasMergeable, Bool.eq_false_iff.mpr hmergeable, Bool.false_or] at hmore
    have hless := ih.2 hmore
    omega

theorem tally_mergeList {nodes : List Node} (h : hasMergeable nodes = true) :
    tallyAll Tag.declares (mergeList nodes).1 < tallyAll Tag.declares nodes := by
  cases nodes with
  | nil => cases h
  | cons node nodes => exact (tally_mergeAfter node nodes).2 h

/-! ### Merged lists -/

section Lists

variable {first second other : Node}

theorem list_ne_nil_of_isPlain {node : Node} (h : isPlain node = true) : node.list 1 ≠ [] := by
  simp only [isPlain, Bool.and_eq_true, Bool.not_eq_true'] at h
  exact List.isEmpty_eq_false_iff.mp h.1.2

theorem list_merge (h : mergeable first second = true) :
    (merge first second).list 1 = first.list 1 ++ second.list 1 := by
  simp only [mergeable, Bool.and_eq_true] at h
  have hslot := slots_of_list (list_ne_nil_of_isPlain h.1.1.1)
  exact list_withSlot (List.getElem?_eq_some_iff.mp hslot).1 _

/-- A merged declaration can be merged with what its first part can be merged with. -/
theorem mergeable_merge (h : mergeable first second = true) :
    (∀ other, mergeable other (merge first second) = mergeable other first) ∧
      ∀ other, mergeable (merge first second) other = mergeable first other := by
  have htag : (merge first second).tag = first.tag := rfl
  have hqualifiers : (merge first second).qualifiers = first.qualifiers := rfl
  have htype : (merge first second).child? 0 = first.child? 0 := by
    rw [child?, merge, withSlot, withSlots, Slot.childAt, List.getElem?_set_ne (by decide), child?,
      Slot.childAt]
  have hplain : isPlain first = true := by
    rw [mergeable, Bool.and_eq_true, Bool.and_eq_true, Bool.and_eq_true] at h
    exact h.1.1.1
  have hplain' : isPlain (merge first second) = isPlain first := by
    have hnames := list_ne_nil_of_isPlain hplain
    have hnames' := List.append_ne_nil_of_left_ne_nil hnames (second.list 1)
    rw [isPlain, isPlain, htag, htype, list_merge h, List.isEmpty_eq_false_iff.mpr hnames',
      List.isEmpty_eq_false_iff.mpr hnames]
  constructor
  · intro other
    rw [mergeable, mergeable, hplain', hqualifiers, htype]
  · intro other
    rw [mergeable, mergeable, hplain', hqualifiers, htype]

/-- A merged list starts with something that can be merged with what its first statement can be
merged with, and has no mergeable neighbours. -/
theorem hasMergeable_mergeAfter (current : Node) (nodes : List Node) :
    hasMergeable (mergeAfter current nodes).1 = false ∧
      ∃ head tail, (mergeAfter current nodes).1 = head :: tail ∧
        ∀ other, mergeable other head = mergeable other current := by
  fun_induction mergeAfter current nodes with
  | case1 current => exact ⟨rfl, current, [], rfl, fun _ => rfl⟩
  | case2 current node nodes hmergeable merged count heq ih =>
    obtain ⟨hnone, head, tail, hcons, hhead⟩ := ih
    rw [heq] at hnone hcons
    exact ⟨hnone, head, tail, hcons, fun other =>
      (hhead other).trans ((mergeable_merge hmergeable).1 other)⟩
  | case3 current node nodes hmergeable merged count heq ih =>
    obtain ⟨hnone, head, tail, hcons, hhead⟩ := ih
    rw [heq] at hnone hcons
    refine ⟨?_, current, merged, rfl, fun _ => rfl⟩
    dsimp only at hcons hnone
    rw [hcons, hasMergeable, hhead, Bool.eq_false_iff.mpr hmergeable, Bool.false_or, ← hcons, hnone]

theorem hasMergeable_mergeList (nodes : List Node) : hasMergeable (mergeList nodes).1 = false := by
  cases nodes with
  | nil => rfl
  | cons node nodes => exact (hasMergeable_mergeAfter node nodes).1

theorem merge_fullyMerged (hfirst : first.Every FullyMerged) (hsecond : second.Every FullyMerged)
    (h : mergeable first second = true) : (merge first second).Every FullyMerged := by
  have htag : (merge first second).tag = .declaration := by
    simp only [mergeable, isPlain, Bool.and_eq_true, beq_iff_eq] at h
    exact h.1.1.1.1.1
  refine every_iff.mpr ⟨fun hlist => by simp [htag] at hlist, fun child hchild => ?_⟩
  rcases mem_children_withSlot hchild with hchild | hchild
  · exact hfirst.child hchild
  · rcases List.mem_append.mp hchild with hchild | hchild
    · exact hfirst.child (mem_children_of_mem_list hchild)
    · exact hsecond.child (mem_children_of_mem_list hchild)

end Lists

/-! ### The merging pass -/

/-- Nothing is left to merge. What was fully merged keeps its shape, and other trees lose
declarations. -/
structure MergesFully (old new : Node) : Prop where
  merged : new.Every FullyMerged
  dwindles : old.Dwindles (old.Every FullyMerged) new

theorem mergesFully_of_edited {old current new : Node} {gain : Nat}
    (hover : old.Over MergesFully current) (h : Edited old.tag current new gain) :
    MergesFully old new := by
  obtain ⟨hle, hless⟩ :=
    tally_of_over Tag.declares hover fun _ _ hmerges => hmerges.dwindles.le
  have hbelow : ∀ child ∈ current.children, child.Every FullyMerged := by
    intro child hchild
    obtain ⟨_, -, hmerges⟩ := exists_of_forall₂ (List.Forall₂.flip hover.children) hchild
    exact hmerges.merged
  have hbare : (∀ child ∈ old.children, child.Every FullyMerged) → current.bare = old.bare :=
    fun hchildren => bare_of_over_bare (hover.imp_mem fun child hchild _ hmerges =>
      hmerges.dwindles.fixed (hchildren child hchild))
  cases h with
  | same hfully hsame =>
    have hroot : FullyMerged current := by
      rw [FullyMerged, hover.tag]
      exact hfully
    rw [hsame]
    refine ⟨every_iff.mpr ⟨hroot, hbelow⟩,
      fun hevery => hbare fun _ hchild => hevery.child hchild, fun hnot => ?_⟩
    by_cases hchildren : ∀ child ∈ old.children, child.Every FullyMerged
    · have hold : FullyMerged old := by
        rw [← fullyMerged_bare, ← hbare hchildren, fullyMerged_bare]
        exact hroot
      exact absurd (every_iff.mpr ⟨hold, hchildren⟩) hnot
    · push Not at hchildren
      obtain ⟨child, hchild, hnot⟩ := hchildren
      exact hless ⟨child, hchild, fun _ hmerges => hmerges.dwindles.less hnot⟩
  | merged htag hmergeable hmerged =>
    have hplace := slots_of_list (ne_nil_of_hasMergeable hmergeable)
    have hslot := tally_withSlot Tag.declares hplace (.many (mergeList (current.list 0)).1)
    have hlist := tally_mergeList hmergeable
    rw [← hmerged, Slot.toList, Slot.toList] at hslot
    refine ⟨every_iff.mpr ⟨fun _ => ?_, fun child hchild => ?_⟩, fun hevery => ?_,
      fun _ => by omega⟩
    · rw [hmerged, list_withSlot (List.getElem?_eq_some_iff.mp hplace).1]
      exact hasMergeable_mergeList _
    · rw [hmerged] at hchild
      rcases mem_children_withSlot hchild with hchild | hchild
      · exact hbelow child hchild
      · exact forall_mergeList (fun _ _ => merge_fullyMerged)
          (fun node hnode => hbelow node (mem_children_of_mem_list hnode)) child hchild
    · have hroot := hevery.root htag
      rw [← hasMergeable_bare, ← list_bare, ← hbare fun _ hchild => hevery.child hchild,
        list_bare, hasMergeable_bare, hmergeable] at hroot
      cases hroot

theorem mergesFully : editor.Law (fun node => node.fitsLayout = true) (fun (_ : Unit) _ => ())
    (fun _ _ => True) (fun _ _ => True) (fun _ _ => MergesFully) := by
  refine .ofLocal (fun h => h) (fun _ => rfl) (fun _ => rfl) fun {node _ _ s' _} _ hdescend hover => ?_
  obtain ⟨change', gain, hrun, hedited⟩ := editing_run node hdescend
  exact ⟨change', s' + gain, hrun, mergesFully_of_edited hover hedited⟩

theorem mergesFully_of_mergeAll {root : Node}
    (hroot : root.Every (fun node => node.fitsLayout = true)) {change : Change} {count : Nat}
    (hrun : mergeAll root = .ok (change, count)) :
    MergesFully root (change.result root) := by
  obtain ⟨change', count', hrun', -, -, hmerges⟩ :=
    mergesFully.apply (k := ()) (s := 0) hroot trivial
  cases hrun'.symm.trans hrun
  exact hmerges

end Declarations

/-! ### Removing functions -/

namespace DeadFunctions

variable {root : Node}

/-- The first function calls the second one somewhere; calls outside of all functions belong to the
global scope. -/
def Calls (root : Node) (caller callee : String) : Prop :=
  (caller, some callee) ∈ CallGraph.listed root CallGraph.globalScope

/-- A chain of calls leads to the function from the entry point or from the initial value of a
global. -/
def Reached (root : Node) (name : String) : Prop :=
  ∃ start ∈ [entryPoint, CallGraph.globalScope], Relation.ReflTransGen (Calls root) start name

/-- All functions of the shader are reached. -/
def AllReached (root : Node) : Prop :=
  ∀ node ∈ root.list 0, isFunction node = true → Reached root node.value

theorem allReached_of_bare {other : Node} (h : other.bare = root.bare) :
    AllReached other ↔ AllReached root := by
  have hbare : ∀ node : Node, AllReached node.bare ↔ AllReached node := by
    intro node
    have hcalls : Calls node.bare = Calls node := by
      funext caller callee
      rw [Calls, CallGraph.listed_bare, Calls]
    simp only [AllReached, Reached, hcalls, list_bare, List.forall_mem_map, isFunction, bare_tag,
      bare_value]
  rw [← hbare, h, hbare]

theorem mem_living_iff (hroot : root.Every (fun node => node.fitsLayout = true)) {calls : Links}
    (hcalls : CallGraph.ofNode root = .ok calls) (name : String) :
    name ∈ living calls ↔ Reached root name := by
  have htargets : (fun a b => b ∈ calls.targets a) = Calls root := by
    funext caller callee
    rw [Calls, CallGraph.mem_targets_iff hroot hcalls]
  rw [living, Links.mem_reachable_iff, Reached]
  simp only [Links.Leads, htargets]

theorem tallyAll_filter (p : Node → Bool) (nodes : List Node) :
    tallyAll Tag.declares (nodes.filter p) + tallyAll Tag.declares (nodes.filter fun node => !p node) =
      tallyAll Tag.declares nodes := by
  induction nodes with
  | nil => rfl
  | cons node nodes ih =>
    rw [tallyAll_cons]
    cases hp : p node <;> simp [hp, tallyAll_cons] <;> omega

/-- A shader whose functions are all reached keeps its shape, others lose functions. -/
theorem dwindles_of_remove (htag : root.tag = .shader) (hroot : root.Grammatical) {change : Change}
    {removed : List String} (hrun : remove root = .ok (change, removed)) :
    root.Dwindles (AllReached root) (change.result root) := by
  obtain ⟨calls, change', removed', hcalls, hrun', hresult⟩ := remove_run htag hroot
  cases hrun'.symm.trans hrun
  have hliving := mem_living_iff hroot.fitsLayout hcalls
  have hlayout := (fitsGrammar_iff.mp hroot.root).1
  rw [fitsLayout, htag] at hlayout
  have hslots : root.slots = [.many (root.list 0)] := Slot.eq_many_of_fitAll hlayout
  have hkept : ∀ node, isKept (living calls) node = false ↔
      isFunction node = true ∧ ¬Reached root node.value := by
    intro node
    simp [isKept, ← hliving]
  constructor
  · intro hall
    have hfilter : (root.list 0).filter (isKept (living calls)) = root.list 0 := by
      refine List.filter_eq_self.mpr fun node hnode => ?_
      rw [← Bool.not_eq_false, hkept]
      exact fun h => h.2 (hall node hnode h.1)
    have hset : root.slots.set 0 (.many (root.list 0)) = root.slots := by
      rw [hslots, List.set_cons_zero]
    rw [hresult, kept, hfilter, withSlot, hset, bare_eq, bare_eq root]
    rfl
  · intro hnot
    unfold AllReached at hnot
    push Not at hnot
    obtain ⟨node, hnode, hfunction, hunreached⟩ := hnot
    have hmem : node ∈ (root.list 0).filter fun node => !isKept (living calls) node := by
      rw [List.mem_filter, (hkept node).mpr ⟨hfunction, hunreached⟩]
      exact ⟨hnode, rfl⟩
    have hcounts : 0 < node.tally Tag.declares := by
      rw [isFunction, Bool.or_eq_true, beq_iff_eq, beq_iff_eq] at hfunction
      rw [tally_eq]
      rcases hfunction with hfunction | hfunction <;> rw [hfunction] <;> simp [Tag.declares]
    have hgone := tally_le_of_mem Tag.declares hmem
    have hsplit := tallyAll_filter (isKept (living calls)) (root.list 0)
    have hslot := tally_withSlot Tag.declares
      (show root.slots[0]? = some (.many (root.list 0)) by rw [hslots]; rfl)
      (.many ((root.list 0).filter (isKept (living calls))))
    rw [tally_of_bare Tag.declares hresult, kept]
    rw [Slot.toList, Slot.toList] at hslot
    omega

end DeadFunctions

end GlslShrink
