import GlslShrink.Proofs.Pass.Counters
import GlslShrink.Proofs.Traversal.Record

/-!
Traversals that fail. Whatever fails on the way, a traversal leaves a stack that its hooks push and
pop as it was, and it ends with the fault that was raised first, even if the hooks after the nodes
fail too (`traversals_unwind`). The functions around a node in the call graph, and the structures
around a node in the census and in the renaming of variables, are such stacks.
-/

set_option autoImplicit false

namespace GlslShrink

open Walk

/-- The walk restores the stack and fails with the first fault that is raised on the way, if there
is one. The record of the walk says which faults are raised. -/
structure Walk.Unwinds {σ κ α : Type} (recording : Walk (Recorded σ) α) (walk : Walk σ α)
    (stack : σ → κ) : Prop where
  restores : ∀ s, stack (walk s).2 = stack s
  records : ∀ s, ((recording { state := s }).1, (recording { state := s }).2.state) = walk s
  first : ∀ s, Fault.of? (walk s).1 = (recording { state := s }).2.faults.head?

theorem Walk.Reports.unwinds {σ κ α : Type} {recording : Walk (Recorded σ) α} {walk : Walk σ α}
    {stack : σ → κ} (hreports : Reports recording) (hrecords : Records recording walk)
    (hrestores : Restores stack walk) : Unwinds recording walk stack where
  restores := hrestores
  records s := by
    obtain ⟨more, hrun⟩ := hrecords { state := s }
    rw [hrun]
    rfl
  first s := by
    obtain ⟨more, hrun⟩ := hrecords { state := s }
    have hfirst := hreports { state := s } rfl
    rw [hrun] at hfirst ⊢
    exact hfirst

/-! ### The stacks of the passes -/

namespace CallGraph

def table : Table State Unit Unit where
  before := visitor.before
  after := visitor.after
  handler := .noting .call fun node state => state.record node.value

theorem visitor_table : table.visitor = visitor := by
  have hvisiting : table.visitor.visiting = visitor.visiting := by
    funext node descend
    exact Handler.run_noting .call (fun node state => state.record node.value) node descend
  exact congrArg (Visitor.mk _ _) hvisiting

/-- The functions around a node. -/
theorem stacks_table : table.Stacks State.enclosing (· == .functionDefinition) where
  push node s h := by
    refine ⟨node.value, s.enter node.value, ?_, rfl⟩
    simp only [table, visitor, if_pos (eq_of_beq h), run_modify]
  pop node s entry rest h hs := by
    simp only [table, visitor, if_pos (eq_of_beq h), run_modify, State.leave, hs, List.tail_cons]
  before node h := by
    simp only [table, visitor, if_neg (ne_of_beq_false h)]
    exact restores_pure ()
  after node h := by
    simp only [table, visitor, if_neg (ne_of_beq_false h)]
    exact restores_pure ()
  leavesAlone node := by
    simp only [table]
    exact Handler.leavesAlone_noting fun _ _ => rfl
  passesOn node := by
    simp only [table]
    exact Handler.passesOn_noting _ _ node

end CallGraph

/-- A counter is a stack of which only the height matters. -/
def strokes (count : Nat) : List Unit :=
  List.replicate count ()

theorem strokes_injective {m n : Nat} (h : strokes m = strokes n) : m = n := by
  simpa only [strokes, List.length_replicate] using congrArg List.length h

theorem Walk.restores_of_strokes {σ α : Type} {depth : σ → Nat} {walk : Walk σ α}
    (h : Restores (fun s => strokes (depth s)) walk) : Restores depth walk :=
  fun s => strokes_injective (h s)

/-- Hooks that count the structures around a node push and pop an entry of a stack. -/
theorem Table.stacks_of_innerDepth {σ α β : Type} {table : Table σ α β} {depth : σ → Nat}
    (hbefore : ∀ node s, ∃ s', table.before node s = (.ok (), s') ∧
      depth s' = node.innerDepth (depth s))
    (hafter : ∀ node s n, depth s = node.innerDepth n → depth (table.after node s).2 = n)
    (hleaves : ∀ node, (table.handler node).LeavesAlone depth)
    (hpasses : ∀ node, (table.handler node).PassesOn) :
    table.Stacks (fun s => strokes (depth s)) (· == .structDefinition) where
  push node s h := by
    obtain ⟨s', hrun, hdepth⟩ := hbefore node s
    refine ⟨(), s', hrun, ?_⟩
    rw [hdepth, Node.innerDepth, if_pos (eq_of_beq h)]
    rfl
  pop node s entry rest h hs := by
    have hdepth : depth s = node.innerDepth rest.length := by
      have hlength := congrArg List.length hs
      rw [Node.innerDepth, if_pos (eq_of_beq h)]
      simpa only [strokes, List.length_replicate, List.length_cons] using hlength
    rw [hafter node s _ hdepth]
    exact (List.eq_replicate_of_mem fun _ _ => rfl).symm
  before node h s := by
    obtain ⟨s', hrun, hdepth⟩ := hbefore node s
    rw [Node.innerDepth, if_neg (ne_of_beq_false h)] at hdepth
    rw [hrun]
    exact congrArg strokes hdepth
  after node h s := by
    have hdepth : depth s = node.innerDepth (depth s) := by
      rw [Node.innerDepth, if_neg (ne_of_beq_false h)]
    exact congrArg strokes (hafter node s _ hdepth)
  leavesAlone node := (hleaves node).comp strokes
  passesOn := hpasses

namespace Census

def table : Table State Unit Unit where
  before := visitor.before
  after := visitor.after
  handler := .noting .declaration fun node state => state.declare node

theorem visitor_table : table.visitor = visitor := by
  have hvisiting : table.visitor.visiting = visitor.visiting := by
    funext node descend
    exact Handler.run_noting .declaration (fun node state => state.declare node) node descend
  exact congrArg (Visitor.mk _ _) hvisiting

/-- The structures around a node. -/
theorem stacks_table :
    table.Stacks (fun state => strokes state.structDepth) (· == .structDefinition) :=
  Table.stacks_of_innerDepth balanced_visitor.before balanced_visitor.after
    (fun node => by
      simp only [table]
      exact Handler.leavesAlone_noting fun htag state => by rw [State.declare_eq htag])
    (fun node => by
      simp only [table]
      exact Handler.passesOn_noting _ _ node)

end Census

namespace VariableNames

/-- Gives a node that has been edited its name. -/
def giveName (node : Node) (change : Change) : Walk State Change :=
  match node.tag with
  | .declarator | .parameter | .identifier => renameVariable node change
  | .structDefinition | .typeName | .call => renameStruct node change
  | _ => pure change

def table : Table State Change (Option Change) where
  before := editor.before
  after := editor.after
  handler node := .descend fun change =>
    .perform (giveName node change) fun other => .finish (some other)

theorem editor_table : table.editor = editor := by
  have hediting : table.editor.editing = editor.editing := by
    funext node descend
    simp only [Table.editor, table, editor, Handler.run, Handler.run_perform]
    congr 1
    funext change
    unfold giveName
    cases node.tag <;> rfl
  exact congrArg (Editor.mk _ _) hediting

theorem restores_giveName (node : Node) (change : Change) :
    Restores State.structDepth (giveName node change) := by
  unfold giveName
  cases node.tag with
  | declarator | parameter | identifier => exact restores_renameVariable node change
  | structDefinition | typeName | call => exact restores_renameStruct node change
  | _ => exact restores_pure change

theorem stacks_table :
    table.Stacks (fun state => strokes state.structDepth) (· == .structDefinition) :=
  Table.stacks_of_innerDepth balanced_editor.before balanced_editor.after
    (fun node change =>
      Handler.leavesAlone_perform (restores_giveName node change) fun _ => trivial)
    (fun _ _ => Handler.passesOn_perform fun _ => trivial)

end VariableNames

/-! ### Every traversal unwinds -/

/-- A visit or an edit of any tree, well-shaped or not, restores the stack of its hooks and fails
with the first fault that is raised, whatever fails afterwards. The call graph restores the
functions around a node, and the census and the renaming of variables the number of structures
around it. -/
theorem traversals_unwind :
    (∀ {σ ε : Type} {table : Table σ Unit Unit} {stack : σ → List ε} {pushes : Tag → Bool},
      table.Stacks stack pushes →
        ∀ node, Unwinds (table.recorder.visit node) (table.visitor.visit node) stack) ∧
    (∀ {σ ε : Type} {table : Table σ Change (Option Change)} {stack : σ → List ε}
      {pushes : Tag → Bool}, table.Stacks stack pushes →
        ∀ node, Unwinds (table.record node) (table.editor.edit node) stack) ∧
    (∀ node, Restores CallGraph.State.enclosing (CallGraph.visitor.visit node)) ∧
    (∀ node, Restores Census.State.structDepth (Census.visitor.visit node)) ∧
    ∀ node, Restores VariableNames.State.structDepth (VariableNames.editor.edit node) := by
  refine ⟨fun {_ _ table _ _} h node => ?_, fun {_ _ table _ _} h node => ?_, fun node => ?_,
    fun node => ?_, fun node => ?_⟩
  · exact (Table.reports_visit h.passesOn node).unwinds (table.records_visit node)
      (h.restores_visit node)
  · exact (Table.reports_edit h.passesOn node).unwinds (table.records_edit node)
      (h.restores_edit node)
  · rw [← CallGraph.visitor_table]
    exact CallGraph.stacks_table.restores_visit node
  · rw [← Census.visitor_table]
    exact restores_of_strokes (Census.stacks_table.restores_visit node)
  · rw [← VariableNames.editor_table]
    exact restores_of_strokes (VariableNames.stacks_table.restores_edit node)

/-- Keeps the categories of the blocks around a node, and fails after every block. -/
def failingAfter {α β : Type} (handler : Handler (List Tag) α β) : Table (List Tag) α β where
  before node := if node.tag = .scope then modify (node.tag :: ·) else pure ()
  after node :=
    if node.tag = .scope then do
      modify List.tail
      throw (.deletedRoot node.tag node.mark.id)
    else pure ()
  handler _ := handler

theorem stacks_failingAfter {α β : Type} (handler : Handler (List Tag) α β)
    (hleaves : handler.LeavesAlone id) (hpasses : handler.PassesOn) :
    (failingAfter handler).Stacks id (· == .scope) where
  push node s h := by
    refine ⟨node.tag, node.tag :: s, ?_, rfl⟩
    simp only [failingAfter, if_pos (eq_of_beq h), run_modify]
  pop node s entry rest h hs := by
    simp only [failingAfter, if_pos (eq_of_beq h)]
    rw [run_bind (run_modify _ s)]
    exact congrArg List.tail hs
  before node h := by
    simp only [failingAfter, if_neg (ne_of_beq_false h)]
    exact restores_pure ()
  after node h := by
    simp only [failingAfter, if_neg (ne_of_beq_false h)]
    exact restores_pure ()
  leavesAlone _ := hleaves
  passesOn _ := hpasses

/-- A block around a type with a place that types do not have. -/
def misshapenBlock : Node :=
  .new .scope "" [] [.many [.new .typeName "int" [] [.absent]]]

/-- The type fails first and the block after it, in a visit as in an edit. -/
theorem traversals_unwind_misshapenBlock :
    let visited := (failingAfter .traverse).visitor.visit misshapenBlock [.shader]
    let edited := (failingAfter (.descend fun change => .finish (some change))).editor.edit
      misshapenBlock [.shader]
    (Fault.of? visited.1 = some (.misshapen .typeName none) ∧ visited.2 = [.shader]) ∧
      Fault.of? edited.1 = some (.misshapen .typeName none) ∧ edited.2 = [.shader] := by
  have hvisit := traversals_unwind.1
    (stacks_failingAfter .traverse (fun _ => trivial) fun _ => trivial) misshapenBlock
  have hedit := traversals_unwind.2.1
    (stacks_failingAfter (.descend fun change => .finish (some change)) (fun _ => trivial)
      fun _ => trivial) misshapenBlock
  exact ⟨⟨hvisit.first [.shader], hvisit.restores [.shader]⟩,
    hedit.first [.shader], hedit.restores [.shader]⟩

end GlslShrink
