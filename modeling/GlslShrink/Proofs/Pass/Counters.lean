import GlslShrink.Proofs.Pass.Braces
import GlslShrink.Proofs.Renaming.Requests
import GlslShrink.Proofs.Traversal.Course

/-!
Counters that are lowered again. The census and the renaming of variables count the structures
around a node, and lower the count when they leave a structure. The removal of braces can be told so
that it counts a pair of braces first and takes that back where an `else` needs them. With a check
before every decrement that the counter is not zero, all of them give the same results
(`Node.countersStayAbove`), so no counter ever falls below zero.
-/

set_option autoImplicit false

namespace GlslShrink

/-! ### The structures around a node -/

/-- Whether a structure that is left was counted. -/
def leavesCounted (node : Node) (depth : Nat) : Bool :=
  node.tag != .structDefinition || decide (0 < depth)

theorem leavesCounted_innerDepth (node : Node) (depth : Nat) :
    leavesCounted node (node.innerDepth depth) = true := by
  unfold leavesCounted Node.innerDepth
  split <;> simp_all

namespace Census

open Walk

theorem balanced_visitor : visitor.Balanced State.structDepth Node.innerDepth where
  before node state := by
    refine ⟨state.enter node, rfl, ?_⟩
    by_cases htag : node.tag = .declaration
    · simp [State.enter, Node.innerDepth, htag]
    · rw [State.enter_eq htag]
  visiting node descend hdescend := by
    by_cases htag : node.tag = .declaration
    · simp only [visitor, if_pos htag]
      refine restores_bind (fun state => ?_) fun _ => hdescend
      rw [run_modify, State.declare_eq htag]
    · simp only [visitor, if_neg htag]
      exact hdescend
  after node state depth hdepth := by
    obtain ⟨census, structDepth⟩ := state
    subst hdepth
    rw [after_run]

/-- The visitor that fails where it would leave a structure that it did not count. -/
def checkedVisitor : Visitor State :=
  visitor.checked fun node state => leavesCounted node state.structDepth

theorem collect_checkedVisitor (start : State) (root : Node) :
    checkedVisitor.collect start root = visitor.collect start root := by
  have hvisit : checkedVisitor.visit root = visitor.visit root :=
    balanced_visitor.visit_checked (fun node state depth hdepth => by
      rw [hdepth]
      exact leavesCounted_innerDepth node depth) root
  rw [Visitor.collect, hvisit, Visitor.collect]

end Census

namespace VariableNames

open Walk

theorem restores_renameVariable (node : Node) (change : Change) :
    Restores State.structDepth (renameVariable node change) := by
  intro state
  obtain ⟨change', hrun⟩ := renameVariable_served node change state
  rw [hrun]
  rfl

theorem restores_renameStruct (node : Node) (change : Change) :
    Restores State.structDepth (renameStruct node change) := by
  intro state
  obtain ⟨change', hrun⟩ := renameStruct_served node change state
  rw [hrun]
  rfl

theorem balanced_editor : editor.Balanced State.structDepth Node.innerDepth where
  before node state := ⟨state.within node, before_within state node, rfl⟩
  editing node descend hdescend := by
    refine restores_bind hdescend fun change => ?_
    cases node.tag with
    | declarator | parameter | identifier =>
      exact restores_bind (restores_renameVariable node change) fun _ => restores_pure _
    | structDefinition | typeName | call =>
      exact restores_bind (restores_renameStruct node change) fun _ => restores_pure _
    | _ => exact restores_pure _
  after node state depth hdepth := by
    have hafter := after_served { state with structDepth := depth } node
    obtain ⟨selection, names, structDepth⟩ := state
    subst hdepth
    rw [hafter]

/-- The editor that fails where it would leave a structure that it did not count. -/
def checkedEditor : Editor State :=
  editor.checked fun node state => leavesCounted node state.structDepth

theorem apply_checkedEditor (root : Node) : checkedEditor.apply root = editor.apply root := by
  have hedit : checkedEditor.edit root = editor.edit root :=
    balanced_editor.edit_checked (fun node state depth hdepth => by
      rw [hdepth]
      exact leavesCounted_innerDepth node depth) root
  rw [Editor.apply, hedit, Editor.apply]

end VariableNames

/-! ### Removed braces -/

namespace Braces

/-- Lowers the count of removed pairs, which must be large enough. -/
def takeBack (node : Node) (pairs : Nat) : Walk Nat Unit :=
  Walk.guarded (fun count => decide (pairs ≤ count)) (.misshapen node.tag node.mark.id)
    (modify (· - pairs))

/-- Takes the braces off the first branch of an `if` that has an `else`, and takes that and its count
back if the `else` would go with an inner `if`. -/
def trimTentatively (node : Node) (change : Change) : Walk Nat Change := do
  let trimmed ← trimChild trim node 1 change
  match (change.result node).child? 1 with
  | none => return trimmed
  | some statement =>
    if endsWithOpenIf ((unwrapped? statement).getD statement) then do
      takeBack node (trim statement).removed
      if statement.tag = .scope then return change
      else return .became ((change.result node).withSlot 1 (.one (.scope [statement])))
    else return trimmed

/-- The removal of braces with a count that is corrected afterwards. -/
def tentativeEditor : Editor Nat where
  editing node descend :=
    if node.tag = .ifStatement then do
      let change ← descend
      let hasElse := ((change.result node).child? 2).isSome
      let change ← if hasElse then trimTentatively node change else trimChild trim node 1 change
      return some (← trimChild trim node 2 change)
    else editor.editing node descend

theorem takeBack_run (node : Node) (count pairs : Nat) :
    takeBack node pairs (count + pairs) = (.ok (), count) := by
  have hguarded : takeBack node pairs (count + pairs) =
      (modify (· - pairs) : Walk Nat Unit) (count + pairs) :=
    Walk.guarded_run (by simp only [Nat.le_add_left, decide_true]) _ _
  rw [hguarded, run_modify, Nat.add_sub_cancel]

theorem trimTentatively_eq (node : Node) (change : Change) :
    trimTentatively node change = trimChild trimBeforeElse node 1 change := by
  funext count
  cases hchild : (change.result node).child? 1 with
  | none =>
    have hnone : ∀ how, trimChild how node 1 change = pure change := fun how => by
      simp only [trimChild, hchild]
    rw [trimTentatively, hnone, hnone, pure_bind, hchild]
  | some statement =>
    rw [trimTentatively, run_bind (trimChild_eq hchild count), trimChild_eq hchild, hchild]
    dsimp only
    by_cases hopen : endsWithOpenIf ((unwrapped? statement).getD statement) = true
    · rw [trimBeforeElse, if_pos hopen, if_pos hopen, run_bind (takeBack_run node count _)]
      split <;> rfl
    · rw [trimBeforeElse, if_neg hopen, if_neg hopen]
      rfl

theorem tentativeEditor_eq : tentativeEditor = editor := by
  have hediting : tentativeEditor.editing = editor.editing := by
    funext node descend
    by_cases htag : node.tag = .ifStatement
    · rw [editing_if descend htag]
      simp only [tentativeEditor, if_pos htag, trimTentatively_eq, trimBranches, bind_assoc]
      congr 1
      funext change
      split <;> rfl
    · simp only [tentativeEditor, if_neg htag]
  exact congrArg (Editor.mk _ _) hediting

end Braces

/-- With checks that no counter is lowered below zero, the census, the renaming of variables and the
removal of braces give the same results on the tree. -/
structure Node.CountersStayAbove (root : Node) : Prop where
  census : Census.checkedVisitor.collect {} root = Census.visitor.collect {} root
  shortening : ∀ selection names,
    (VariableNames.checkedEditor.apply root).runFrom { selection := selection, names := names } =
      (VariableNames.editor.apply root).runFrom { selection := selection, names := names }
  braces : (Braces.tentativeEditor.apply root).runFrom 0 = Braces.reduce root

theorem Node.countersStayAbove (root : Node) : root.CountersStayAbove where
  census := Census.collect_checkedVisitor {} root
  shortening selection names := by rw [VariableNames.apply_checkedEditor]
  braces := by rw [Braces.tentativeEditor_eq, Braces.reduce]

end GlslShrink
