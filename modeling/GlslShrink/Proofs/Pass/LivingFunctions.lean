import GlslShrink.Proofs.Analysis.Census
import GlslShrink.Proofs.Pass.NormalForms
import GlslShrink.Proofs.Reading.Soundness
import Mathlib.Data.List.Induction

/-!
Which functions stay. A function is alive if it is the entry point, if it is called outside of all
function definitions, or if it is called in a definition of a function that is alive (`Alive`). The
search over the call graph finds exactly these (`reached_iff`), so the removal deletes the others
and nothing else (`remove_pruned`). A prototype is outside of all definitions: what it calls stays
even if it goes itself, and a second removal can find more (`deleted_eq_nil_iff`). Directives call
nothing, whatever words they have.
-/

set_option autoImplicit false

namespace GlslShrink

open Node

/-- Somewhere in the tree the function is called. -/
def Node.HasCall (root : Node) (name : String) : Prop :=
  ∃ call ∈ root.preorder, call.tag = .call ∧ call.value = name

theorem Node.hasCall_iff {node : Node} {name : String} :
    node.HasCall name ↔
      node.tag = .call ∧ node.value = name ∨ ∃ child ∈ node.children, child.HasCall name := by
  simp only [HasCall, preorder_eq node, List.exists_mem_cons_iff, List.mem_flatMap]
  grind

namespace DeadFunctions

variable {root node : Node} {name caller callee : String}

/-! ### Functions that are alive -/

/-- A definition of the first function contains a call of the second one. -/
def Uses (root : Node) (caller callee : String) : Prop :=
  ∃ definition ∈ root.list 0, definition.tag = .functionDefinition ∧ definition.value = caller ∧
    definition.HasCall callee

/-- The function is called outside of all function definitions. -/
def UsedOutside (root : Node) (callee : String) : Prop :=
  ∃ declaration ∈ root.list 0, declaration.tag ≠ .functionDefinition ∧ declaration.HasCall callee

/-- Calls lead to the function from the entry point, or from outside of all function definitions. -/
def Alive (root : Node) (name : String) : Prop :=
  ∃ start, (start = "main" ∨ UsedOutside root start) ∧
    Relation.ReflTransGen (Uses root) start name

theorem mem_lists_iff {around : String} :
    (caller, some callee) ∈ CallGraph.lists around node ↔
      node.tag = .call ∧ caller = around ∧ node.value = callee := by
  unfold CallGraph.lists
  cases node.tag <;> simp [@eq_comm _ callee]

/-- Where no function is defined, all calls belong to the function around. -/
theorem mem_listed_iff (h : node.Every Inert) {around : String} :
    (caller, some callee) ∈ CallGraph.listed node around ↔
      caller = around ∧ node.HasCall callee := by
  induction node using Node.induct with
  | h node ih =>
    have hinside : CallGraph.inside around node = around := by
      have hother := h.root.2
      rw [isFunction, Bool.or_eq_false_iff, beq_eq_false_iff_ne] at hother
      exact if_neg hother.1
    have hbelow : (caller, some callee) ∈
          node.children.flatMap (fun child => CallGraph.listed child around) ↔
        caller = around ∧ ∃ child ∈ node.children, child.HasCall callee := by
      rw [List.mem_flatMap]
      constructor
      · rintro ⟨child, hchild, hmem⟩
        obtain ⟨hcaller, hcall⟩ := (ih child hchild (h.child hchild)).mp hmem
        exact ⟨hcaller, child, hchild, hcall⟩
      · rintro ⟨hcaller, child, hchild, hcall⟩
        exact ⟨child, hchild, (ih child hchild (h.child hchild)).mpr ⟨hcaller, hcall⟩⟩
    rw [CallGraph.listed_eq, hinside, List.mem_append, mem_lists_iff, hbelow, hasCall_iff]
    tauto

/-- The calls of a top-level declaration belong to the function that it defines, or to none. -/
theorem mem_listed_topLevel (h : node.Grammatical) (htag : node.tag ≠ .shader)
    (hcall : node.tag ≠ .call) {around : String} :
    (caller, some callee) ∈ CallGraph.listed node around ↔
      caller = CallGraph.inside around node ∧ node.HasCall callee := by
  have hinert : ∀ child ∈ node.children, child.Every Inert := fun child hchild => by
    obtain ⟨hshader, hplain⟩ := plain_of_mem_children h htag hchild
    exact inert_of_grammatical (h.child hchild) hshader hplain
  rw [CallGraph.listed_eq, List.mem_append, mem_lists_iff, List.mem_flatMap, hasCall_iff]
  simp only [hcall, false_and, false_or]
  constructor
  · rintro ⟨child, hchild, hmem⟩
    obtain ⟨hcaller, hcalled⟩ := (mem_listed_iff (hinert child hchild)).mp hmem
    exact ⟨hcaller, child, hchild, hcalled⟩
  · rintro ⟨hcaller, child, hchild, hcalled⟩
    exact ⟨child, hchild, (mem_listed_iff (hinert child hchild)).mpr ⟨hcaller, hcalled⟩⟩

section Shader

variable (htag : root.tag = .shader) (hroot : root.Grammatical)

include htag hroot

theorem children_of_shader : root.children = root.list 0 := by
  rw [children, (slots_of_shader htag hroot).1, List.flatMap_singleton, Slot.toList]

theorem topLevel_of_mem (hnode : node ∈ root.list 0) :
    node.Grammatical ∧ node.tag.isTopLevel = true := by
  refine ⟨hroot.child (mem_children_of_mem_list hnode), ?_⟩
  exact tag_of_mem_list (i := 0) hroot.root (by rw [htag]; rfl) hnode

/-- The call graph has the calls of functions and those outside of all definitions. -/
theorem calls_iff :
    Calls root caller callee ↔
      Uses root caller callee ∨ caller = CallGraph.globalScope ∧ UsedOutside root callee := by
  have hlists : CallGraph.lists CallGraph.globalScope root = [] := by
    rw [CallGraph.lists, htag]
  have hinside : CallGraph.inside CallGraph.globalScope root = CallGraph.globalScope :=
    if_neg (by rw [htag]; decide)
  have hnode : ∀ node ∈ root.list 0,
      ((caller, some callee) ∈ CallGraph.listed node CallGraph.globalScope ↔
        caller = CallGraph.inside CallGraph.globalScope node ∧ node.HasCall callee) := by
    intro node hnode
    obtain ⟨hgrammar, htop⟩ := topLevel_of_mem htag hroot hnode
    refine mem_listed_topLevel hgrammar (fun heq => ?_) (fun heq => ?_) <;>
      · rw [heq] at htop
        cases htop
  rw [Calls, CallGraph.listed_eq, hlists, hinside, List.nil_append, children_of_shader htag hroot,
    List.mem_flatMap]
  constructor
  · rintro ⟨node, hmem, hlisted⟩
    obtain ⟨hcaller, hcall⟩ := (hnode node hmem).mp hlisted
    by_cases hdefinition : node.tag = .functionDefinition
    · rw [CallGraph.inside, if_pos hdefinition] at hcaller
      exact Or.inl ⟨node, hmem, hdefinition, hcaller.symm, hcall⟩
    · rw [CallGraph.inside, if_neg hdefinition] at hcaller
      exact Or.inr ⟨hcaller, node, hmem, hdefinition, hcall⟩
  · rintro (⟨node, hmem, hdefinition, rfl, hcall⟩ | ⟨rfl, node, hmem, hdefinition, hcall⟩)
    · exact ⟨node, hmem, (hnode node hmem).mpr ⟨(if_pos hdefinition).symm, hcall⟩⟩
    · exact ⟨node, hmem, (hnode node hmem).mpr ⟨(if_neg hdefinition).symm, hcall⟩⟩

theorem isName_of_function (hnode : node ∈ root.list 0) (hfunction : isFunction node = true) :
    Word.isName node.value = true := by
  have hvalue := (fitsGrammar_iff.mp (topLevel_of_mem htag hroot hnode).1.root).2.2.1
  rw [isFunction, Bool.or_eq_true, beq_iff_eq, beq_iff_eq] at hfunction
  rcases hfunction with hfunction | hfunction <;>
    · rw [hfunction] at hvalue
      exact hvalue

theorem not_uses_globalScope : ¬ Uses root CallGraph.globalScope callee := by
  rintro ⟨node, hmem, hdefinition, hvalue, -⟩
  have hname := isName_of_function htag hroot hmem (by rw [isFunction, hdefinition]; rfl)
  rw [hvalue] at hname
  exact absurd hname (by decide)

/-- The search from the entry point and the global scope finds the functions that are alive. -/
theorem reached_iff : Reached root name ↔ name = CallGraph.globalScope ∨ Alive root name := by
  constructor
  · rintro ⟨start, hstart, hpath⟩
    induction hpath with
    | refl =>
      simp only [List.mem_cons, List.not_mem_nil, or_false] at hstart
      rcases hstart with rfl | rfl
      · exact Or.inr ⟨_, Or.inl rfl, .refl⟩
      · exact Or.inl rfl
    | tail _ hcall ih =>
      rcases (calls_iff htag hroot).mp hcall with huses | ⟨-, houtside⟩
      · rcases ih with rfl | ⟨first, hfirst, hpath⟩
        · exact absurd huses (not_uses_globalScope htag hroot)
        · exact Or.inr ⟨first, hfirst, hpath.tail huses⟩
      · exact Or.inr ⟨_, Or.inr houtside, .refl⟩
  · have huses : Uses root ≤ Calls root := fun _ _ huses =>
      (calls_iff htag hroot).mpr (Or.inl huses)
    have hmono : ∀ {a b}, Relation.ReflTransGen (Uses root) a b →
        Relation.ReflTransGen (Calls root) a b := fun hpath =>
      Relation.ReflTransGen.mono huses _ _ hpath
    rintro (rfl | ⟨start, rfl | houtside, hpath⟩)
    · exact ⟨_, List.mem_cons_of_mem _ List.mem_cons_self, .refl⟩
    · exact ⟨_, List.mem_cons_self, hmono hpath⟩
    · refine ⟨CallGraph.globalScope, List.mem_cons_of_mem _ List.mem_cons_self, ?_⟩
      exact .head ((calls_iff htag hroot).mpr (Or.inr ⟨rfl, houtside⟩)) (hmono hpath)

end Shader

/-! ### What remains -/

/-- The top-level declaration is a function that is alive, or no function. -/
def Remains (root declaration : Node) : Prop :=
  isFunction declaration = true → Alive root declaration.value

open Classical in
/-- The top-level declarations that remain. -/
noncomputable def remaining (root : Node) : List Node :=
  (root.list 0).filter fun declaration => decide (Remains root declaration)

open Classical in
/-- The functions that are deleted. -/
noncomputable def deleted (root : Node) : List Node :=
  (root.list 0).filter fun declaration => decide (¬ Remains root declaration)

theorem mem_remaining : node ∈ remaining root ↔ node ∈ root.list 0 ∧ Remains root node := by
  simp [remaining]

theorem mem_deleted : node ∈ deleted root ↔ node ∈ root.list 0 ∧ ¬ Remains root node := by
  simp [deleted]

/-- Names are noted once, in the order of their first occurrence. -/
theorem foldl_note (names : List String) :
    (∀ name, name ∈ names.foldl note [] ↔ name ∈ names) ∧
      (names.foldl note []).Pairwise fun a b => names.idxOf a < names.idxOf b := by
  induction names using List.reverseRecOn with
  | nil => exact ⟨fun _ => Iff.rfl, .nil⟩
  | append_singleton names last ih =>
    obtain ⟨hmem, horder⟩ := ih
    have hindex : ∀ {name}, name ∈ names.foldl note [] →
        (names ++ [last]).idxOf name = names.idxOf name := fun hname =>
      List.idxOf_append_of_mem ((hmem _).mp hname)
    have horder' : (names.foldl note []).Pairwise fun a b =>
        (names ++ [last]).idxOf a < (names ++ [last]).idxOf b :=
      horder.imp_of_mem fun ha hb hlt => by rwa [hindex ha, hindex hb]
    rw [List.foldl_append, List.foldl_cons, List.foldl_nil, note]
    by_cases hlast : last ∈ names.foldl note []
    · rw [if_pos (List.contains_iff_mem.mpr hlast)]
      refine ⟨fun name => ?_, horder'⟩
      rw [hmem, List.mem_append, List.mem_singleton]
      constructor
      · exact Or.inl
      · rintro (hname | rfl)
        · exact hname
        · exact (hmem _).mp hlast
    · rw [if_neg (fun hcontains => hlast (List.contains_iff_mem.mp hcontains))]
      refine ⟨fun name => by rw [List.mem_append, List.mem_append, hmem], ?_⟩
      refine List.pairwise_append.mpr ⟨horder', List.pairwise_singleton _ _, fun a ha b hb => ?_⟩
      rw [List.mem_singleton] at hb
      subst hb
      rw [hindex ha, List.idxOf_append_of_notMem fun hmem' => hlast ((hmem _).mpr hmem')]
      have hlt := List.idxOf_lt_length_of_mem ((hmem a).mp ha)
      omega

/-- The removal deletes exactly the functions that are not alive. The other declarations are the
very same and keep their order, and so is the shader if nothing is deleted. Each deleted name is
listed once, in the order of first occurrence. A function that is still called keeps its definitions
and prototypes. -/
structure Pruned (root : Node) (change : Change) (removed : List String) : Prop where
  declarations : (change.result root).list 0 = remaining root
  unchanged : change = .unchanged ↔ deleted root = []
  became : ∀ node, change = .became node → node = root.withSlot 0 (.many (remaining root))
  mem_removed : ∀ name, name ∈ removed ↔ name ∈ (deleted root).map Node.value
  nodup : removed.Nodup
  inOrder : removed.Pairwise fun a b =>
    ((deleted root).map Node.value).idxOf a < ((deleted root).map Node.value).idxOf b
  closed : ∀ callee, (change.result root).HasCall callee → ∀ function ∈ root.list 0,
    isFunction function = true → function.value = callee →
      function ∈ (change.result root).list 0

/-- The functions that are called in what remains are alive. -/
theorem alive_of_hasCall (hnode : node ∈ remaining root) (hcall : node.HasCall callee) :
    Alive root callee := by
  obtain ⟨hmem, hremains⟩ := mem_remaining.mp hnode
  by_cases hdefinition : node.tag = .functionDefinition
  · obtain ⟨start, hstart, hpath⟩ := hremains (by rw [isFunction, hdefinition]; rfl)
    exact ⟨start, hstart, hpath.tail ⟨node, hmem, hdefinition, rfl, hcall⟩⟩
  · exact ⟨callee, Or.inr ⟨node, hmem, hdefinition, hcall⟩, .refl⟩

section Shader

variable (htag : root.tag = .shader) (hroot : root.Grammatical)

include htag hroot

theorem isKept_iff {calls : Links} (hcalls : CallGraph.ofNode root = .ok calls)
    (hnode : node ∈ root.list 0) : isKept (living calls) node = true ↔ Remains root node := by
  rw [isKept, Bool.or_eq_true, Bool.not_eq_true', List.contains_iff_mem,
    mem_living_iff hroot.fitsLayout hcalls, reached_iff htag hroot, Remains]
  cases hfunction : isFunction node with
  | false => simp
  | true =>
    have hname : node.value ≠ CallGraph.globalScope := by
      intro heq
      have hisName := isName_of_function htag hroot hnode hfunction
      rw [heq] at hisName
      exact absurd hisName (by decide)
    simp [hname]

/-- The declarations that the search keeps are those that remain. -/
theorem filter_isKept {calls : Links} (hcalls : CallGraph.ofNode root = .ok calls) :
    (root.list 0).filter (isKept (living calls)) = remaining root ∧
      (root.list 0).filter (fun node => !isKept (living calls) node) = deleted root := by
  have hkept : ∀ node ∈ root.list 0, (isKept (living calls) node = true ↔ Remains root node) :=
    fun node hnode => isKept_iff htag hroot hcalls hnode
  constructor
  · refine List.filter_congr fun node hnode => ?_
    rw [Bool.eq_iff_iff, hkept node hnode]
    simp
  · refine List.filter_congr fun node hnode => ?_
    rw [Bool.eq_iff_iff, Bool.not_eq_true', ← Bool.not_eq_true, hkept node hnode]
    simp

/-- The shader that is left consists of what remains. -/
theorem pruned_cases {calls : Links} (hcalls : CallGraph.ofNode root = .ok calls) :
    pruned (living calls) root = .unchanged ∧ deleted root = [] ∧
        root.slots = [.many (remaining root)] ∨
      pruned (living calls) root = .became (root.withSlot 0 (.many (remaining root))) ∧
        deleted root ≠ [] := by
  obtain ⟨hremaining, hdeleted⟩ := filter_isKept htag hroot hcalls
  rw [pruned, kept, hremaining]
  by_cases hall : (root.list 0).all (isKept (living calls)) = true
  · rw [List.all_eq_true] at hall
    rw [if_pos (List.all_eq_true.mpr hall)]
    refine Or.inl ⟨rfl, ?_, ?_⟩
    · rw [← hdeleted]
      exact List.filter_eq_nil_iff.mpr fun node hnode => by simp [hall node hnode]
    · rw [← hremaining, List.filter_eq_self.mpr hall]
      exact (slots_of_shader htag hroot).1
  · rw [if_neg hall]
    refine Or.inr ⟨rfl, fun hnone => hall (List.all_eq_true.mpr fun node hnode => ?_)⟩
    rw [← hdeleted, List.filter_eq_nil_iff] at hnone
    simpa using hnone node hnode

theorem remove_pruned :
    ∃ change removed, remove root = .ok (change, removed) ∧ Pruned root change removed := by
  obtain ⟨calls, hcalls, hrun⟩ := remove_eq htag hroot
  have hnames := foldl_note ((deleted root).map Node.value)
  have hgone : goneNames (living calls) [] (root.list 0) =
      ((deleted root).map Node.value).foldl note [] := by
    rw [goneNames, (filter_isKept htag hroot hcalls).2, List.foldl_map]
  rw [hgone] at hrun
  have hcases := pruned_cases htag hroot hcalls
  have hslots : ((pruned (living calls) root).result root).slots = [.many (remaining root)] := by
    rcases hcases with ⟨hsame, -, hslots⟩ | ⟨hother, -⟩
    · rw [hsame]
      exact hslots
    · rw [hother, Change.result, withSlot, withSlots, (slots_of_shader htag hroot).1,
        List.set_cons_zero]
  have hshader : ((pruned (living calls) root).result root).tag = .shader := by
    rcases hcases with ⟨hsame, -⟩ | ⟨hother, -⟩
    · rw [hsame]
      exact htag
    · rw [hother]
      exact htag
  have hlist : ((pruned (living calls) root).result root).list 0 = remaining root := by
    rw [list, hslots]
    rfl
  refine ⟨_, _, hrun, hlist, ?_, ?_, hnames.1, ?_, hnames.2, ?_⟩
  · rcases hcases with ⟨hsame, hnone, -⟩ | ⟨hother, hsome⟩
    · simp [hsame, hnone]
    · simp [hother, hsome]
  · intro node hnode
    rcases hcases with ⟨hsame, -⟩ | ⟨hother, -⟩
    · cases hsame.symm.trans hnode
    · cases hother.symm.trans hnode
      rfl
  · exact hnames.2.imp fun hlt heq => absurd (heq ▸ hlt) (Nat.lt_irrefl _)
  · intro callee hcall function hmem hfunction hvalue
    rw [hlist, mem_remaining]
    refine ⟨hmem, fun _ => ?_⟩
    rcases hasCall_iff.mp hcall with ⟨htag', -⟩ | ⟨child, hchild, hcall⟩
    · cases htag'.symm.trans hshader
    · rw [children, hslots, List.flatMap_singleton, Slot.toList] at hchild
      rw [hvalue]
      exact alive_of_hasCall hchild hcall

end Shader

/-! ### Removing again -/

/-- The shader has a definition or a prototype of the function. -/
def Declares (root : Node) (name : String) : Prop :=
  ∃ function ∈ root.list 0, isFunction function = true ∧ function.value = name

section Again

variable {new : Node} (hlist : new.list 0 = remaining root)

include hlist

/-- Chains of calls between functions that are alive are still there. -/
theorem path_of_alive {start : String} (hstart : Alive root start)
    (hpath : Relation.ReflTransGen (Uses root) start name) :
    Relation.ReflTransGen (Uses new) start name := by
  induction hpath with
  | refl => exact .refl
  | tail hpath huses ih =>
    obtain ⟨definition, hmem, hdefinition, hvalue, hcall⟩ := huses
    obtain ⟨first, hfirst, hpath'⟩ := hstart
    refine ih.tail ⟨definition, ?_, hdefinition, hvalue, hcall⟩
    rw [hlist, mem_remaining]
    exact ⟨hmem, fun _ => ⟨first, hfirst, hvalue ▸ hpath'.trans hpath⟩⟩

/-- All functions that are left are alive in what is left if and only if those are that a deleted
prototype calls. -/
theorem deleted_eq_nil_iff :
    deleted new = [] ↔ ∀ prototype ∈ deleted root, prototype.tag = .functionPrototype →
      ∀ callee, prototype.HasCall callee → Declares root callee → Alive new callee := by
  rw [List.eq_nil_iff_forall_not_mem]
  simp only [@mem_deleted new, not_and, not_not, hlist]
  constructor
  · rintro hall prototype hprototype htag callee hcall ⟨function, hmem, hfunction, rfl⟩
    have houtside : UsedOutside root function.value :=
      ⟨prototype, (mem_deleted.mp hprototype).1, by rw [htag]; decide, hcall⟩
    have hremains : Remains root function := fun _ => ⟨_, Or.inr houtside, .refl⟩
    exact hall function (mem_remaining.mpr ⟨hmem, hremains⟩) hfunction
  · intro hcalled function hmem hfunction
    obtain ⟨hmem, hremains⟩ := mem_remaining.mp hmem
    obtain ⟨start, hstart, hpath⟩ := hremains hfunction
    have hpath' := path_of_alive hlist ⟨start, hstart, .refl⟩ hpath
    rcases hstart with rfl | ⟨declaration, hdeclaration, hother, hcall⟩
    · exact ⟨_, Or.inl rfl, hpath'⟩
    · by_cases hgone : declaration ∈ deleted root
      · -- a deleted declaration that defines no function is a prototype
        have hprototype : declaration.tag = .functionPrototype := by
          have hisFunction : isFunction declaration = true := by
            by_contra hno
            exact (mem_deleted.mp hgone).2 fun hyes => absurd hyes hno
          rw [isFunction, Bool.or_eq_true, beq_iff_eq, beq_iff_eq] at hisFunction
          exact hisFunction.resolve_left hother
        have hdeclared : Declares root start := by
          rcases hpath.cases_head with heq | ⟨_, ⟨definition, hmem', htag, hvalue, -⟩, -⟩
          · exact ⟨function, hmem, hfunction, heq.symm⟩
          · exact ⟨definition, hmem', by rw [isFunction, htag]; rfl, hvalue⟩
        obtain ⟨first, hfirst, hpath''⟩ :=
          hcalled declaration hgone hprototype start hcall hdeclared
        exact ⟨first, hfirst, hpath''.trans hpath'⟩
      · have hstays : declaration ∈ new.list 0 := by
          rw [hlist, mem_remaining]
          exact ⟨hdeclaration, not_not.mp fun hno => hgone (mem_deleted.mpr ⟨hdeclaration, hno⟩)⟩
        exact ⟨start, Or.inr ⟨declaration, hstays, hother, hcall⟩, hpath'⟩

end Again

/-- The names of deleted functions are those of declared ones that are not alive. -/
theorem Pruned.mem_removed_iff {change : Change} {removed : List String}
    (h : Pruned root change removed) :
    name ∈ removed ↔ Declares root name ∧ ¬ Alive root name := by
  rw [h.mem_removed, List.mem_map]
  constructor
  · rintro ⟨function, hmem, rfl⟩
    obtain ⟨hmem, hgone⟩ := mem_deleted.mp hmem
    rw [Remains, Classical.not_imp] at hgone
    exact ⟨⟨function, hmem, hgone.1, rfl⟩, hgone.2⟩
  · rintro ⟨⟨function, hmem, hfunction, rfl⟩, hdead⟩
    exact ⟨function, mem_deleted.mpr ⟨hmem, fun hremains => hdead (hremains hfunction)⟩, rfl⟩

/-- What was read, whatever marks it has been given, is pruned to a shader that could have been
read. -/
theorem exists_pruned {source : String} {rule : StartRule} {tree : Node}
    (hread : parse source rule = .ok tree) (hshader : tree.tag = .shader)
    (hshape : root.sameShape tree = true) :
    ∃ change removed, remove root = .ok (change, removed) ∧ Pruned root change removed ∧
      (change.result root).tag = .shader ∧ (change.result root).Grammatical := by
  have hself : tree.Stays false tree :=
    ⟨rfl, (parse_formed hread).sound.imp fun _ => checked_false_iff.mpr,
      fun node hnode => ⟨node, hnode, rfl, rfl⟩⟩
  have hroot := hself.of_bare ((sameShape_iff _ _).mp hshape)
  have htag : root.tag = .shader := hroot.tag.trans hshader
  obtain ⟨change, removed, hrun, hpruned⟩ :=
    remove_pruned htag (hroot.checked.imp fun _ hnode => hnode.1)
  obtain ⟨_, _, hrun', hstays⟩ := runs_remove false root htag hroot.checked
  cases hrun.symm.trans hrun'
  exact ⟨change, removed, hrun, hpruned, hstays.tag.trans htag,
    hstays.checked.imp fun _ hnode => hnode.1⟩

/-- Removing functions from a shader that was read deletes exactly those that are not alive.
Removing functions again changes nothing if and only if all functions that a deleted prototype
calls, as in the size of an array, are alive without it. -/
theorem remove_exact {source : String} {rule : StartRule} {tree : Node}
    (hread : parse source rule = .ok tree) (hshader : tree.tag = .shader)
    (hshape : root.sameShape tree = true) :
    ∃ change removed, remove root = .ok (change, removed) ∧ Pruned root change removed ∧
      ∃ again removed', remove (change.result root) = .ok (again, removed') ∧
        (again = .unchanged ∧ removed' = [] ↔
          ∀ prototype ∈ deleted root, prototype.tag = .functionPrototype → ∀ callee,
            prototype.HasCall callee → Declares root callee →
              Alive (change.result root) callee) := by
  obtain ⟨change, removed, hrun, hpruned, htag, hgrammar⟩ := exists_pruned hread hshader hshape
  obtain ⟨again, removed', hagain, hpruned'⟩ := remove_pruned htag hgrammar
  refine ⟨change, removed, hrun, hpruned, again, removed', hagain, ?_⟩
  rw [← deleted_eq_nil_iff hpruned.declarations, hpruned'.unchanged, and_iff_left_iff_imp]
  intro hnone
  refine List.eq_nil_iff_forall_not_mem.mpr fun name hname => ?_
  rw [hpruned'.mem_removed, hnone] at hname
  cases hname

/-- A recursive function with two definitions, one that is called by the initial value of a global,
and a prototype that nothing calls. -/
theorem remove_exact_overloads :
    ∃ tree, parse
        "void f(int n){f(n);}void f(){}int g();int k=h();int h(){return 1;}void main(){f(2);}"
        .shader = .ok tree ∧ tree.tag = .shader ∧ (tree.numbered 0).sameShape tree = true ∧
      ∃ change, remove (tree.numbered 0) = .ok (change, ["g"]) ∧
        Pruned (tree.numbered 0) change ["g"] ∧
        ∃ again removed', remove (change.result (tree.numbered 0)) = .ok (again, removed') ∧
          (again = .unchanged ∧ removed' = [] ↔
            ∀ prototype ∈ deleted (tree.numbered 0), prototype.tag = .functionPrototype →
              ∀ callee, prototype.HasCall callee → Declares (tree.numbered 0) callee →
                Alive (change.result (tree.numbered 0)) callee) := by
  have hok : (parse
      "void f(int n){f(n);}void f(){}int g();int k=h();int h(){return 1;}void main(){f(2);}"
      .shader).toOption.any (fun tree => tree.tag == .shader && (tree.numbered 0).sameShape tree &&
        (remove (tree.numbered 0)).toOption.any fun result => result.2 == ["g"]) = true := by
    decide +kernel
  obtain ⟨tree, hread, htree⟩ := exists_ok_of_any hok
  rw [Bool.and_eq_true, Bool.and_eq_true, beq_iff_eq] at htree
  obtain ⟨⟨htag, hshape⟩, hremoved⟩ := htree
  obtain ⟨result, hresult, hnames⟩ := exists_ok_of_any hremoved
  obtain ⟨change, removed, hrun, hpruned, hagain⟩ := remove_exact hread htag hshape
  obtain rfl : result = (change, removed) := Except.ok.inj (hresult.symm.trans hrun)
  obtain rfl : removed = ["g"] := beq_iff_eq.mp hnames
  exact ⟨tree, hread, htag, hshape, change, hrun, hpruned, hagain⟩

/-- The function `g` is called in the size of an array of the prototype of `f`. That goes, and only
the next removal finds that nothing calls `g` any more. -/
theorem remove_again_ne :
    ∃ tree change again,
      parse "int g(){return 1;}void f(int a[g()]);void main(){}" .shader = .ok tree ∧
      remove tree = .ok (change, ["f"]) ∧ remove (change.result tree) = .ok (again, ["g"]) ∧
      again ≠ .unchanged := by
  have hok : (parse "int g(){return 1;}void f(int a[g()]);void main(){}" .shader).toOption.any
      (fun tree => (remove tree).toOption.any fun first => first.2 == ["f"] &&
        (remove (first.1.result tree)).toOption.any fun second =>
          second.2 == ["g"] && !second.1.isUnchanged) = true := by
    decide +kernel
  obtain ⟨tree, hread, hfirst⟩ := exists_ok_of_any hok
  obtain ⟨⟨change, removed⟩, hrun, hsecond⟩ := exists_ok_of_any hfirst
  rw [Bool.and_eq_true, beq_iff_eq] at hsecond
  obtain ⟨rfl, hsecond⟩ := hsecond
  obtain ⟨⟨again, removed'⟩, hrun', hchanged⟩ := exists_ok_of_any hsecond
  rw [Bool.and_eq_true, beq_iff_eq] at hchanged
  obtain ⟨rfl, hchanged⟩ := hchanged
  refine ⟨tree, change, again, hread, hrun, hrun', ?_⟩
  rintro rfl
  cases hchanged

/-! ### Directives -/

/-- Directives do not keep functions alive: of the words of the directives that are left, exactly
those are names of deleted functions that name functions which are not alive. So no deleted function
is named in a directive if and only if all functions that directives name are alive. -/
theorem mem_removed_iff_of_directive {source : String} {rule : StartRule} {tree : Node}
    (hread : parse source rule = .ok tree) (hshader : tree.tag = .shader)
    (hshape : root.sameShape tree = true) :
    ∃ change removed census, remove root = .ok (change, removed) ∧
      Census.ofNode (change.result root) = .ok census ∧
      (∀ word, word ∈ census.directiveWords ↔
        ∃ directive ∈ (change.result root).preorder, directive.tag = .directive ∧
          word ∈ Census.wordsOfDirective directive.value) ∧
      (∀ word ∈ census.directiveWords,
        (word ∈ removed ↔ Declares root word ∧ ¬ Alive root word)) ∧
      ((∀ name ∈ removed, name ∉ census.directiveWords) ↔
        ∀ word ∈ census.directiveWords, Declares root word → Alive root word) := by
  obtain ⟨change, removed, hrun, hpruned, -, hgrammar⟩ := exists_pruned hread hshader hshape
  have hcensus := Census.ofNode_eq hgrammar.fitsLayout
  have hremoved : ∀ name, name ∈ removed ↔ Declares root name ∧ ¬ Alive root name :=
    fun name => hpruned.mem_removed_iff
  refine ⟨change, removed, _, hrun, hcensus,
    fun word => Census.mem_directiveWords_iff hgrammar hcensus, fun word _ => hremoved word, ?_⟩
  simp only [hremoved]
  grind

/-- The directive names a function that is called elsewhere; the other function goes. -/
theorem mem_removed_iff_of_directive_called :
    ∃ tree, parse "#define F f()\nvoid f(){}void g(){}void main(){f();F;}" .shader = .ok tree ∧
      tree.tag = .shader ∧ tree.sameShape tree = true ∧
      ∃ change removed census, remove tree = .ok (change, removed) ∧
        Census.ofNode (change.result tree) = .ok census ∧
        (∀ word, word ∈ census.directiveWords ↔
          ∃ directive ∈ (change.result tree).preorder, directive.tag = .directive ∧
            word ∈ Census.wordsOfDirective directive.value) ∧
        (∀ word ∈ census.directiveWords,
          (word ∈ removed ↔ Declares tree word ∧ ¬ Alive tree word)) ∧
        ((∀ name ∈ removed, name ∉ census.directiveWords) ↔
          ∀ word ∈ census.directiveWords, Declares tree word → Alive tree word) := by
  have hok : (parse "#define F f()\nvoid f(){}void g(){}void main(){f();F;}" .shader).toOption.any
      (fun tree => tree.tag == .shader) = true := by
    decide +kernel
  obtain ⟨tree, hread, htag⟩ := exists_ok_of_any hok
  have hshape : tree.sameShape tree = true := (sameShape_iff tree tree).mpr rfl
  exact ⟨tree, hread, beq_iff_eq.mp htag, hshape,
    mem_removed_iff_of_directive hread (beq_iff_eq.mp htag) hshape⟩

/-- A function that only a macro calls is deleted, although the directive stays and the census
counts its words as uses, so that the function would not be renamed. -/
theorem remove_deletes_macroCallee :
    ∃ tree change census, parse "#define F f()\nvoid f(){}void main(){F;}" .shader = .ok tree ∧
      remove tree = .ok (change, ["f"]) ∧
      (∃ directive ∈ (change.result tree).preorder, directive.tag = .directive ∧
        "f" ∈ Census.wordsOfDirective directive.value) ∧
      Census.ofNode tree = .ok census ∧ "f" ∈ census.functions ∧
      "f" ∉ census.renamableFunctions := by
  have hok : (parse "#define F f()\nvoid f(){}void main(){F;}" .shader).toOption.any (fun tree =>
      ((remove tree).toOption.any fun result => result.2 == ["f"] &&
        (result.1.result tree).preorder.any fun directive => directive.tag == .directive &&
          (Census.wordsOfDirective directive.value).contains "f") &&
      (Census.ofNode tree).toOption.any fun census =>
        census.functions.contains "f" && !census.renamableFunctions.contains "f") = true := by
    decide +kernel
  obtain ⟨tree, hread, htree⟩ := exists_ok_of_any hok
  rw [Bool.and_eq_true] at htree
  obtain ⟨⟨change, removed⟩, hrun, hresult⟩ := exists_ok_of_any htree.1
  obtain ⟨census, hcensus, hfunctions⟩ := exists_ok_of_any htree.2
  rw [Bool.and_eq_true, beq_iff_eq, List.any_eq_true] at hresult
  obtain ⟨rfl, directive, hmem, hdirective⟩ := hresult
  rw [Bool.and_eq_true, beq_iff_eq, List.contains_iff_mem] at hdirective
  simp only [Bool.and_eq_true, List.contains_eq_mem, decide_eq_true_eq, Bool.not_eq_true',
    decide_eq_false_iff_not] at hfunctions
  exact ⟨tree, change, census, hread, hrun, ⟨directive, hmem, hdirective⟩, hcensus, hfunctions⟩

end DeadFunctions

end GlslShrink
