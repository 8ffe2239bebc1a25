import GlslShrink.Pass.DeadFunctions
import GlslShrink.Proofs.Analysis.CallGraph
import GlslShrink.Proofs.Pass.Rebuilt

/-!
Removing functions keeps shaders printable. Functions stand only at the top of a shader
(`noFunction_below`), so all that happens to one is that its top-level functions go unless they are
alive (`remove_eq`).
-/

set_option autoImplicit false

namespace GlslShrink

namespace Node

theorem tag_of_mem_children {node child : Node} (hgrammar : node.fitsGrammar = true)
    (hchild : child ∈ node.children) : ∃ allowed ∈ node.tag.places, allowed child.tag = true := by
  obtain ⟨slot, hslot, hinside⟩ := List.mem_flatMap.mp hchild
  obtain ⟨i, hi⟩ := List.getElem?_of_mem hslot
  obtain ⟨allowed, hplace, hall⟩ := exists_place hgrammar hi
  exact ⟨allowed, List.mem_of_getElem? hplace, hall child hinside⟩

end Node

namespace DeadFunctions

open Node

variable (alive : NameSet) {strict : Bool} {node : Node}

/-- Functions stand only at the top of a shader. -/
theorem noFunction_below {tag : Tag} (htag : tag ≠ .shader) :
    ∀ allowed ∈ tag.places, allowed .functionDefinition = false ∧
      allowed .functionPrototype = false ∧ allowed .shader = false := by
  have hall : (tag == .shader || tag.places.all (fun allowed => !allowed .functionDefinition &&
      !allowed .functionPrototype && !allowed .shader)) = true := by
    cases tag <;> rfl
  rw [beq_eq_false_iff_ne.mpr htag, Bool.false_or, List.all_eq_true] at hall
  intro allowed hallowed
  simpa [and_assoc] using hall allowed hallowed

/-- The node has its places filled and is no function. -/
def Inert (node : Node) : Prop :=
  node.fitsLayout = true ∧ isFunction node = false

/-- Only shaders hold functions, and nothing holds shaders. -/
theorem plain_of_mem_children (h : node.Grammatical) (htag : node.tag ≠ .shader) {child : Node}
    (hchild : child ∈ node.children) : child.tag ≠ .shader ∧ isFunction child = false := by
  obtain ⟨allowed, hmem, hallowed⟩ := tag_of_mem_children h.root hchild
  obtain ⟨hdefinition, hprototype, hshader⟩ := noFunction_below htag allowed hmem
  refine ⟨fun heq => ?_, ?_⟩
  · rw [heq, hshader] at hallowed
    cases hallowed
  · rw [isFunction, Bool.or_eq_false_iff, beq_eq_false_iff_ne, beq_eq_false_iff_ne]
    constructor
    · intro heq
      rw [heq, hdefinition] at hallowed
      cases hallowed
    · intro heq
      rw [heq, hprototype] at hallowed
      cases hallowed

theorem inert_of_grammatical (h : node.Grammatical) (htag : node.tag ≠ .shader)
    (hfunction : isFunction node = false) : node.Every Inert := by
  induction node using Node.induct with
  | h node ih =>
    refine every_iff.mpr ⟨⟨(fitsGrammar_iff.mp h.root).1, hfunction⟩, fun child hchild => ?_⟩
    obtain ⟨hshader, hplain⟩ := plain_of_mem_children h htag hchild
    exact ih child hchild (h.child hchild) hshader hplain

/-- Without functions nothing happens to a tree. -/
theorem edit_idle (h : node.Every Inert) : (editor alive).Idle node := by
  refine Editor.idle_of_local (fun h => h.1) (fun _ => rfl) (fun _ => rfl) ?_ h
  intro node descend removed hinert hdescend
  simp only [editor, hinert.2]
  rw [if_neg Bool.false_ne_true]
  exact run_bind hdescend

/-- Whether a top-level declaration stays. -/
def isKept (node : Node) : Bool :=
  !isFunction node || alive.contains node.value

theorem edit_kept (h : isFunction node = true ∨ node.Every Inert)
    (hkept : isKept alive node = true) :
    (editor alive).Idle node := by
  rcases h with hfunction | hinert
  · intro removed
    rw [isKept, hfunction, Bool.not_true, Bool.false_or] at hkept
    rw [Editor.edit_eq]
    simp only [editor, if_pos hfunction, if_pos hkept]
    rfl
  · exact edit_idle alive hinert

theorem edit_gone (hgone : isKept alive node = false) (removed : List String) :
    (editor alive).edit node removed = (.ok none, note removed node.value) := by
  rw [isKept, Bool.or_eq_false_iff, Bool.not_eq_false'] at hgone
  rw [Editor.edit_eq]
  simp only [editor, if_pos hgone.1, hgone.2]
  rfl

/-- The names of the top-level declarations that do not stay, each once. -/
def goneNames (removed : List String) (nodes : List Node) : List String :=
  (nodes.filter (fun node => !isKept alive node)).foldl (fun names node => note names node.value)
    removed

theorem goneNames_cons (removed : List String) (node : Node) (nodes : List Node) :
    goneNames alive removed (node :: nodes) =
      goneNames alive (if isKept alive node then removed else note removed node.value) nodes := by
  unfold goneNames
  cases hkept : isKept alive node <;> simp [hkept]

/-- What is left of a list of top-level declarations. -/
theorem editList_eq {nodes : List Node}
    (h : ∀ node ∈ nodes, isFunction node = true ∨ node.Every Inert) (removed : List String) :
    (editor alive).editList nodes removed =
      (.ok (nodes.filter (isKept alive), !nodes.all (isKept alive)),
        goneNames alive removed nodes) := by
  induction nodes generalizing removed with
  | nil => rfl
  | cons node nodes ih =>
    obtain ⟨hnode, hnodes⟩ := List.forall_mem_cons.mp h
    rw [Editor.editList]
    cases hkept : isKept alive node with
    | true =>
      rw [run_bind (edit_kept alive hnode hkept removed), run_bind (ih hnodes removed),
        goneNames_cons, List.filter_cons, List.all_cons, hkept]
      rfl
    | false =>
      rw [run_bind (edit_gone alive hkept removed), run_bind (ih hnodes _), goneNames_cons,
        List.filter_cons, List.all_cons, hkept]
      rfl

/-- The shader with those top-level declarations only that stay. -/
def kept (root : Node) : Node :=
  root.withSlot 0 (.many ((root.list 0).filter (isKept alive)))

/-- What becomes of a shader. If all declarations stay, it is the very same. -/
def pruned (root : Node) : Change :=
  if (root.list 0).all (isKept alive) then .unchanged else .became (kept alive root)

theorem editChildren_eq {root : Node} (hslots : root.slots = [.many (root.list 0)])
    (hlayout : root.fitsLayout = true)
    (h : ∀ node ∈ root.list 0, isFunction node = true ∨ node.Every Inert)
    (removed : List String) :
    (editor alive).editChildren root removed =
      (.ok (pruned alive root), goneNames alive removed (root.list 0)) := by
  have hslot : (editor alive).editSlot root 0 (.many (root.list 0)) removed =
      (.ok (.many ((root.list 0).filter (isKept alive)), !(root.list 0).all (isKept alive)),
        goneNames alive removed (root.list 0)) := by
    rw [Editor.editSlot, run_bind (editList_eq alive h removed)]
    rfl
  have hplaces : (editor alive).editSlots root 0 root.slots removed =
      (.ok ([.many ((root.list 0).filter (isKept alive))], !(root.list 0).all (isKept alive)),
        goneNames alive removed (root.list 0)) := by
    rw [hslots, Editor.editSlots, run_bind hslot, Editor.editSlots]
    cases (root.list 0).all (isKept alive) <;> rfl
  rw [Editor.editChildren, run_bind (Walk.checkLayout_run hlayout removed), run_bind hplaces,
    pruned, kept, withSlot, hslots, List.set_cons_zero]
  cases (root.list 0).all (isKept alive) <;> rfl

theorem result_pruned {root : Node} (hslots : root.slots = [.many (root.list 0)]) :
    ((pruned alive root).result root).bare = (kept alive root).bare := by
  rw [pruned]
  split
  · rename_i hall
    have hfilter : (root.list 0).filter (isKept alive) = root.list 0 :=
      List.filter_eq_self.mpr (List.all_eq_true.mp hall)
    rw [kept, hfilter, withSlot, hslots, List.set_cons_zero, ← hslots, bare_eq,
      bare_eq (root.withSlots root.slots)]
    rfl
  · rfl

/-- A shader some of whose top-level declarations are gone stays one that passes the checks. -/
theorem stays_kept {root : Node} (htag : root.tag = .shader)
    (hroot : root.Every (Checked strict)) : root.Stays strict (kept alive root) := by
  have hkind : root.tag.layout[0]? = some .list := by rw [htag]; rfl
  obtain ⟨allowed, hplace⟩ : ∃ allowed, root.tag.places[0]? = some allowed := by
    rw [htag]
    exact ⟨_, rfl⟩
  have hholds : root.tag.holdsStatements = true := by rw [htag]; rfl
  have hmem : ∀ node ∈ (root.list 0).filter (isKept alive), node ∈ root.list 0 :=
    fun node hnode => (List.mem_filter.mp hnode).1
  have hnearly : (kept alive root).Nearly strict :=
    (nearly_of_every hroot).withSlot hkind hplace rfl
      (fun node hnode => ⟨tag_of_mem_list hroot.root.1 hplace (hmem node hnode),
        hroot.child (mem_children_of_mem_list (hmem node hnode))⟩)
      (isComplete_of_holdsStatements hholds)
  exact
    { tag := rfl
      checked := hnearly.every_checked hholds
        (keepsElse_of_ne (by rw [kept, withSlot, withSlots, htag]; decide))
      topLevel := fun node hnode => by
        rw [kept, list_withSlot (lt_length_of_layout hroot.root.1 hkind)] at hnode
        exact ⟨node, hmem node hnode, rfl, rfl⟩ }

/-- A shader is a list of functions and of declarations without functions in them. -/
theorem slots_of_shader {root : Node} (htag : root.tag = .shader) (hroot : root.Grammatical) :
    root.slots = [.many (root.list 0)] ∧
      ∀ node ∈ root.list 0, isFunction node = true ∨ node.Every Inert := by
  have hlayout := (fitsGrammar_iff.mp hroot.root).1
  rw [fitsLayout, htag] at hlayout
  refine ⟨Slot.eq_many_of_fitAll hlayout, fun node hnode => ?_⟩
  cases hfunction : isFunction node with
  | true => exact Or.inl rfl
  | false =>
    refine Or.inr (inert_of_grammatical (hroot.child (mem_children_of_mem_list hnode)) ?_ hfunction)
    intro heq
    have hallowed := tag_of_mem_list (i := 0) hroot.root (by rw [htag]; rfl) hnode
    rw [heq] at hallowed
    cases hallowed

theorem apply_eq {root : Node} (htag : root.tag = .shader) (hroot : root.Grammatical)
    (removed : List String) :
    ((editor alive).apply root).runFrom removed =
      .ok (pruned alive root, goneNames alive removed (root.list 0)) := by
  obtain ⟨hslots, htop⟩ := slots_of_shader htag hroot
  have hediting : (editor alive).editing root ((editor alive).editChildren root) removed =
      (.ok (some (pruned alive root)), goneNames alive removed (root.list 0)) := by
    have hother : isFunction root = false := by rw [isFunction, htag]; rfl
    simp only [editor, hother]
    rw [if_neg Bool.false_ne_true]
    exact run_bind (editChildren_eq alive hslots (fitsGrammar_iff.mp hroot.root).1 htop removed)
  have hedit : (editor alive).edit root removed =
      (.ok (some (pruned alive root)), goneNames alive removed (root.list 0)) := by
    rw [Editor.edit_eq]
    exact Walk.ensuring_run hediting rfl
  have happly : (editor alive).apply root removed =
      (.ok (pruned alive root), goneNames alive removed (root.list 0)) := by
    rw [Editor.apply, run_bind hedit]
    rfl
  simp only [Walk.runFrom, happly]

/-- The functions that can be reached from the entry point or from the initial value of a global. -/
def living (calls : Links) : NameSet :=
  calls.reachable [entryPoint, CallGraph.globalScope]

/-- Removing functions from a shader leaves its other declarations and the functions alive. -/
theorem remove_eq {root : Node} (htag : root.tag = .shader) (hroot : root.Grammatical) :
    ∃ calls, CallGraph.ofNode root = .ok calls ∧
      remove root =
        .ok (pruned (living calls) root, goneNames (living calls) [] (root.list 0)) := by
  refine ⟨_, CallGraph.ofNode_eq hroot.fitsLayout, ?_⟩
  rw [remove, CallGraph.ofNode_eq hroot.fitsLayout]
  exact apply_eq (living _) htag hroot []

theorem remove_run {root : Node} (htag : root.tag = .shader) (hroot : root.Grammatical) :
    ∃ calls change removed, CallGraph.ofNode root = .ok calls ∧
      remove root = .ok (change, removed) ∧
      (change.result root).bare = (kept (living calls) root).bare := by
  obtain ⟨calls, hcalls, hrun⟩ := remove_eq htag hroot
  exact ⟨calls, _, _, hcalls, hrun, result_pruned _ (slots_of_shader htag hroot).1⟩

/-- Removing functions succeeds on every shader that passes the checks and keeps it so. -/
theorem runs_remove (strict : Bool) : Runs strict remove := by
  intro root htag hroot
  obtain ⟨calls, change, removed, -, hrun, hresult⟩ :=
    remove_run htag (hroot.imp fun _ hnode => hnode.1)
  exact ⟨change, removed, hrun, (stays_kept _ htag hroot).of_bare hresult⟩

/-- Removing functions that are never called keeps printable shaders printable. -/
theorem keepsPrintable_remove : KeepsPrintable remove :=
  (runs_remove true).keepsPrintable

end DeadFunctions

end GlslShrink
