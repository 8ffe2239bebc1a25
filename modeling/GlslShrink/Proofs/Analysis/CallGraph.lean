import GlslShrink.Analysis.CallGraph
import GlslShrink.Proofs.Analysis.Reachability
import GlslShrink.Proofs.Naming.Generator
import GlslShrink.Proofs.Traversal.Laws
import GlslShrink.Proofs.Tree.Gather

/-!
The calls of a shader. A visit of a well-shaped tree succeeds and lists its functions and calls in
the order in which they are written (`ofNode_eq`). So a function is followed to exactly those that
it calls somewhere (`mem_targets_iff`).
-/

set_option autoImplicit false

namespace GlslShrink.CallGraph

/-! ### What is listed -/

/-- The function around the children of a node. -/
def inside (caller : String) (node : Node) : String :=
  if node.tag = .functionDefinition then node.value else caller

/-- What a node lists: a function, or a call from the function around it. -/
def lists (caller : String) (node : Node) : List (String × Option String) :=
  match node.tag with
  | .functionDefinition => [(node.value, none)]
  | .call => [(caller, some node.value)]
  | _ => []

/-- The functions and calls of a tree, in order, where `caller` is the function around it. -/
def listed : Node → String → List (String × Option String) :=
  Node.gather inside lists (fun _ _ => [])

theorem listed_eq (node : Node) (caller : String) :
    listed node caller = lists caller node ++
      node.children.flatMap (fun child => listed child (inside caller node)) := by
  rw [listed, Node.gather_eq, List.append_nil]

theorem listed_bare (node : Node) (caller : String) : listed node.bare caller = listed node caller :=
  Node.gather_bare (fun _ node => by simp [inside]) (fun _ node => by simp [lists])
    (fun _ _ => rfl) node caller

/-- The calls with one more entry. -/
def entered (calls : Links) (entry : String × Option String) : Links :=
  match entry.2 with
  | none => addFunction calls entry.1
  | some callee => addCall calls entry.1 callee

/-- The function around the current node. -/
def State.caller (state : State) : String :=
  state.enclosing.headD globalScope

/-- The state after a whole tree. -/
def State.after (state : State) (node : Node) : State :=
  { state with calls := (listed node state.caller).foldl entered state.calls }

theorem foldl_after (nodes : List Node) (state : State) :
    nodes.foldl State.after state =
      { state with
        calls := (nodes.flatMap (fun node => listed node state.caller)).foldl entered
          state.calls } := by
  induction nodes generalizing state with
  | nil => rfl
  | cons node nodes ih =>
    rw [List.foldl_cons, ih, List.flatMap_cons, List.foldl_append]
    rfl

/-! ### The visit -/

/-- The state of a visit within a node. -/
def State.within (state : State) (node : Node) : State where
  calls := (lists state.caller node).foldl entered state.calls
  enclosing :=
    if node.tag = .functionDefinition then node.value :: state.enclosing else state.enclosing

theorem State.caller_within (state : State) (node : Node) :
    (state.within node).caller = inside state.caller node := by
  unfold caller within inside
  split <;> rfl

/-- The children of a node list what the node itself does not. -/
theorem foldl_after_within (state : State) (node : Node) :
    node.children.foldl State.after (state.within node) =
      { state.within node with calls := (state.after node).calls } := by
  rw [foldl_after, State.caller_within, State.after, listed_eq, List.foldl_append]
  rfl

theorem before_visiting_run {node : Node} {descend : Walk State Unit} {state state' : State}
    (h : descend (state.within node) = (.ok (), state')) :
    ∃ middle, visitor.before node state = (.ok (), middle) ∧
      visitor.visiting node descend middle = (.ok (), state') := by
  by_cases hfunction : node.tag = .functionDefinition
  · refine ⟨state.within node, ?_, ?_⟩
    · simp only [visitor, State.within, lists, hfunction]
      rfl
    · simp only [visitor, hfunction, reduceCtorEq, if_false]
      exact h
  · refine ⟨state, ?_, ?_⟩
    · simp only [visitor, if_neg hfunction]
      rfl
    · by_cases hcall : node.tag = .call
      · simp only [visitor, if_pos hcall]
        rw [run_bind (run_modify _ _), ← h]
        simp only [State.within, lists, hcall]
        rfl
      · have hlists : lists state.caller node = [] := by
          unfold lists
          split <;> simp_all
        simp only [State.within, hlists, if_neg hfunction] at h
        simp only [visitor, if_neg hcall]
        exact h

theorem after_run (state : State) (node : Node) (calls : Links) :
    visitor.after node { state.within node with calls := calls } =
      (.ok (), { state with calls := calls }) := by
  unfold State.within visitor
  by_cases hfunction : node.tag = .functionDefinition
  · simp only [if_pos hfunction]
    rfl
  · simp only [if_neg hfunction]
    rfl

/-- A visit of a well-shaped tree succeeds and lists its functions and calls. -/
theorem visit_run {node : Node} (hfits : node.Every (fun node => node.fitsLayout = true))
    (state : State) : visitor.visit node state = (.ok (), state.after node) := by
  induction node using Node.induct generalizing state with
  | h node ih =>
    have hdescend : visitor.visitChildren node (state.within node) =
        (.ok (), { state.within node with calls := (state.after node).calls }) := by
      rw [Visitor.visitChildren, run_bind (Walk.checkLayout_run hfits.root _), ← foldl_after_within]
      exact Visitor.visitSlots_run (fun child hchild => ih child hchild (hfits.child hchild)) _
    obtain ⟨middle, hbefore, hvisiting⟩ := before_visiting_run hdescend
    rw [Visitor.visit_eq, run_bind hbefore,
      Walk.ensuring_run hvisiting (after_run state node _)]
    rfl

theorem ofNode_eq {root : Node} (hfits : root.Every (fun node => node.fitsLayout = true)) :
    ofNode root = .ok ((listed root globalScope).foldl entered [(globalScope, [])]) := by
  have hrun : (visitor.visit root).runFrom {} = .ok ((), State.after {} root) := by
    simp only [Walk.runFrom, visit_run hfits]
  rw [ofNode, Visitor.collect, hrun]
  rfl

/-! ### Who calls whom -/

theorem targets_addFunction (calls : Links) (name caller : String) :
    (addFunction calls name).targets caller = calls.targets caller := by
  unfold addFunction
  by_cases hlisted : calls.contains name = true
  · rw [if_pos hlisted]
  · rw [if_neg hlisted, Links.targets, NameMap.find?_insert]
    by_cases hname : caller = name
    · have hnone : calls.find? name = none := by
        rwa [NameMap.contains, Option.not_isSome_iff_eq_none] at hlisted
      rw [if_pos hname, Links.targets, hname, hnone]
      rfl
    · rw [if_neg hname, Links.targets]

theorem targets_addCall (calls : Links) (name callee caller : String) :
    (addCall calls name callee).targets caller =
      if caller = name then calls.targets name ++ [callee] else calls.targets caller := by
  rw [addCall, Links.targets, NameMap.find?_insert]
  by_cases hname : caller = name
  · rw [if_pos hname, if_pos hname, Option.getD_some]
  · rw [if_neg hname, if_neg hname, Links.targets]

theorem mem_targets_foldl (entries : List (String × Option String)) (calls : Links)
    {caller callee : String} :
    callee ∈ (entries.foldl entered calls).targets caller ↔
      callee ∈ calls.targets caller ∨ (caller, some callee) ∈ entries := by
  induction entries generalizing calls with
  | nil => simp
  | cons entry entries ih =>
    obtain ⟨name, called⟩ := entry
    rw [List.foldl_cons, ih, List.mem_cons]
    cases called with
    | none => simp [entered, targets_addFunction]
    | some called =>
      simp only [entered, targets_addCall, Prod.mk.injEq, Option.some.injEq]
      by_cases hname : caller = name
      · subst hname
        simp [or_assoc]
      · simp [hname]

/-- In the call graph, functions lead to those that they call somewhere. -/
theorem mem_targets_iff {root : Node} (hfits : root.Every (fun node => node.fitsLayout = true))
    {calls : Links} (hcalls : ofNode root = .ok calls) {caller callee : String} :
    callee ∈ calls.targets caller ↔ (caller, some callee) ∈ listed root globalScope := by
  rw [ofNode_eq hfits, Except.ok.injEq] at hcalls
  rw [← hcalls, mem_targets_foldl]
  have hstart : Links.targets [(globalScope, [])] caller = [] := by
    rw [Links.targets, NameMap.find?_cons]
    split <;> rfl
  rw [hstart]
  simp

end GlslShrink.CallGraph
