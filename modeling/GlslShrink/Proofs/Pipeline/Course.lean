import GlslShrink.Proofs.Pass.Braces
import GlslShrink.Proofs.Pass.DeadFunctions
import GlslShrink.Proofs.Pass.Declarations
import GlslShrink.Proofs.Pipeline.Schedule
import GlslShrink.Proofs.Renaming.CaptureFreeFunctions

/-!
The course of a compilation. The options register steps that are always scheduled in the order in
which they are registered (`Options.run_eq`). On trees that the grammar allows every one of them
succeeds and leaves such trees (`Options.exists_course`), so a run goes through a program without
dead functions, one with merged declarations and one with fewer braces to the one with short names
(`Options.Course`).
-/

set_option autoImplicit false

namespace GlslShrink

/-- The tree is a shader that passes the checks and can stand in the stage. -/
structure Stage.Accepts (strict : Bool) (stage : Stage) (root : Node) : Prop where
  tag : root.tag = .shader
  checked : root.Every (Node.Checked strict)
  noAttribute : stage = .fragment → ∀ node ∈ root.list 0, Source.isAttribute node = false

/-- The trees of both stages pass the checks. -/
def Program.Accepted (strict : Bool) (program : Program) : Prop :=
  ∀ stage : Stage, stage.Accepts strict (program.tree stage)

/-- The pass makes one tree of the other. -/
def Node.Becomes {α : Type} (pass : Node → Except Fault (Change × α)) (old new : Node) : Prop :=
  ∃ change a, pass old = .ok (change, a) ∧ new = change.result old

/-- The pass, if it is enabled, makes the trees of one program of those of the other. -/
def Program.Passes {α : Type} (pass : Node → Except Fault (Change × α)) (enabled : Bool)
    (old new : Program) : Prop :=
  if enabled then ∀ stage, (old.tree stage).Becomes pass (new.tree stage) else new = old

/-- The renaming of variables and then that of functions, if enabled, make one program of the
other. -/
def Program.Renames (aggressive enabled : Bool) (old new : Program) : Prop :=
  if enabled then
    ∃ earlier published middle outputs names,
      (Steps.renameVariables aggressive).perform earlier old =
        (.ok (some (.renamed published)), middle) ∧
      outputs.names? Steps.variableNames = some published ∧
      Steps.renameFunctions.perform outputs middle = (.ok (some (.renamed names)), new)
  else new = old

section Stage

variable {strict : Bool} {stage : Stage} {root : Node}

theorem Stage.Accepts.stays (h : stage.Accepts strict root) {new : Node}
    (hstays : root.Stays strict new) : stage.Accepts strict new where
  tag := hstays.tag.trans h.tag
  checked := hstays.checked
  noAttribute hfragment node hnode := by
    obtain ⟨node', hnode', htag, hqualifiers⟩ := hstays.topLevel node hnode
    have hother := h.noAttribute hfragment node' hnode'
    rwa [Source.isAttribute, Node.hasQualifier, htag, hqualifiers]

theorem Stage.Accepts.grammatical (h : stage.Accepts strict root) : root.Grammatical :=
  h.checked.imp fun _ hnode => hnode.1

theorem Stage.accepts_of_parse {source : String} (h : parse source stage.startRule = .ok root) :
    stage.Accepts false root := by
  obtain ⟨htag, hchecked⟩ := checked_of_parse h
  refine ⟨htag, hchecked, fun hfragment => ?_⟩
  subst hfragment
  exact (Source.shader_sound h).2.2 rfl

theorem Program.accepted_of_read {vertex fragment : String} {program : Program}
    (h : Program.read vertex fragment = .ok program) : program.Accepted false := by
  intro stage
  obtain ⟨source, hsource⟩ := Program.exists_source h stage
  exact Stage.accepts_of_parse hsource

theorem Program.Accepted.setTree {program : Program} (h : program.Accepted strict) {tree : Node}
    (htree : stage.Accepts strict tree) : (program.setTree stage tree).Accepted strict := by
  intro other
  by_cases hother : other = stage
  · rw [hother, Program.tree_setTree_self]
    exact htree
  · rw [Program.tree_setTree_of_ne hother]
    exact h other

end Stage

/-! ### The steps -/

namespace Steps

variable {strict : Bool} {α : Type} {pass : Node → Except Fault (Change × α)} {program : Program}

theorem onStage_accepted (hpass : Node.Runs strict pass) (h : program.Accepted strict)
    (stage : Stage) :
    ∃ a tree, onStage pass stage program = (.ok a, program.setTree stage tree) ∧
      (program.tree stage).Becomes pass tree ∧ stage.Accepts strict tree := by
  have hstage := h stage
  obtain ⟨change, a, hrun, hstays⟩ := hpass _ hstage.tag hstage.checked
  exact ⟨a, _, onStage_run hrun, ⟨change, a, hrun, rfl⟩, hstage.stays hstays⟩

/-- A pass that succeeds on accepted trees, on both stages. -/
theorem onBoth_accepted (hpass : Node.Runs strict pass) (h : program.Accepted strict) :
    ∃ result passed, onBoth pass program = (.ok result, passed) ∧
      program.Passes pass true passed ∧ passed.Accepted strict := by
  obtain ⟨a, vertex, hvertexRun, hvertex, hvertexAccepts⟩ := onStage_accepted hpass h .vertex
  have hmiddle := h.setTree hvertexAccepts
  obtain ⟨b, fragment, hfragmentRun, hfragment, hfragmentAccepts⟩ :=
    onStage_accepted hpass hmiddle .fragment
  refine ⟨(a, b), _, ?_, ?_, hmiddle.setTree hfragmentAccepts⟩
  · rw [onBoth, run_bind hvertexRun, run_bind hfragmentRun]
    rfl
  · intro stage
    cases stage with
    | vertex => exact hvertex
    | fragment => exact hfragment

/-- The step runs the pass on both stages, and publishes something about it. -/
def Applies (step : Step Program) (pass : Node → Except Fault (Change × α)) : Prop :=
  ∃ publish : α × α → Option StepOutput, ∀ outputs,
    step.perform outputs = onBoth pass >>= fun result => pure (publish result)

theorem applies_removeDeadFunctions : Applies removeDeadFunctions DeadFunctions.remove :=
  ⟨fun names => some (.removed names.1 names.2), fun _ => rfl⟩

theorem applies_mergeDeclarations : Applies mergeDeclarations Declarations.mergeAll :=
  ⟨fun counts => some (.count (counts.1 + counts.2)), fun _ => rfl⟩

theorem applies_reduceBraces : Applies reduceBraces Braces.reduce :=
  ⟨fun counts => some (.count (counts.1 + counts.2)), fun _ => rfl⟩

/-- A step that applies a pass succeeds, whether it is registered or not. -/
theorem Applies.performAll {step : Step Program} (hstep : Applies step pass)
    (hpass : Node.Runs strict pass) (h : program.Accepted strict) (enabled : Bool)
    (outputs : StepOutputs) :
    ∃ later passed, Step.performAll (if enabled then [step] else []) outputs program =
        (.ok later, passed) ∧
      program.Passes pass enabled passed ∧ passed.Accepted strict := by
  cases enabled with
  | false => exact ⟨outputs, program, rfl, rfl, h⟩
  | true =>
    obtain ⟨publish, hperform⟩ := hstep
    obtain ⟨result, passed, hrun, hpasses, haccepted⟩ := onBoth_accepted hpass h
    have hstepRun : step.perform outputs program = (.ok (publish result), passed) := by
      rw [hperform, run_bind hrun]
      rfl
    refine ⟨outputs.record step.name (publish result), passed, ?_, hpasses, haccepted⟩
    rw [if_pos rfl, Step.performAll, run_bind hstepRun]
    rfl

theorem renameVariables_accepted (h : program.Accepted strict) (aggressive : Bool)
    (outputs : StepOutputs) :
    ∃ published renamed, (renameVariables aggressive).perform outputs program =
        (.ok (some (.renamed published)), renamed) ∧ renamed.Accepted strict := by
  have hgrammar := fun stage => (h stage).grammatical
  obtain ⟨names, renamed, hrun, hstages⟩ := VariableNames.renameVariables_run aggressive hgrammar
    (fun stage => Census.ofNode_eq (hgrammar stage).fitsLayout) outputs
  exact ⟨_, renamed, hrun, fun stage =>
    (h stage).stays (VariableNames.stays_stages hstages stage (h stage).checked)⟩

theorem renameFunctions_accepted (h : program.Accepted strict) {outputs : StepOutputs}
    {published : Renaming} (hpublished : outputs.names? variableNames = some published) :
    ∃ names renamed, renameFunctions.perform outputs program =
        (.ok (some (.renamed names)), renamed) ∧ renamed.Accepted strict := by
  have hstages := fun stage => FunctionNames.runs_rename strict (published.next stage)
    (program.tree stage) (h stage).tag (h stage).checked
  choose changes names hrename hstays using hstages
  obtain ⟨renamed, hrun, htrees⟩ := renameFunctions_run hpublished hrename
  refine ⟨_, renamed, hrun, fun stage => ?_⟩
  rw [htrees]
  exact (h stage).stays (hstays stage)

/-- What was published last under a name that is not in use yet is found. -/
theorem names?_record {outputs : StepOutputs} {name : String} (h : name ∉ outputs.order)
    (names : Renaming) : (outputs.record name (some (.renamed names))).names? name = some names := by
  have hnone : outputs.entries.lookup name = none := by
    rw [List.lookup_eq_none_iff]
    intro entry hentry
    rw [bne_iff_ne]
    rintro rfl
    exact h (List.mem_map_of_mem hentry)
  simp [StepOutputs.names?, StepOutputs.record, List.lookup_append, hnone]

/-- The renaming steps succeed one after the other, whether they are registered or not. -/
theorem performAll_renames (h : program.Accepted strict) (aggressive enabled : Bool)
    {outputs : StepOutputs} (hfresh : variableNames ∉ outputs.order) :
    ∃ later renamed,
      Step.performAll (if enabled then [renameVariables aggressive, renameFunctions] else [])
        outputs program = (.ok later, renamed) ∧
      program.Renames aggressive enabled renamed ∧ renamed.Accepted strict := by
  cases enabled with
  | false => exact ⟨outputs, program, rfl, rfl, h⟩
  | true =>
    obtain ⟨published, middle, hvariables, hmiddle⟩ :=
      renameVariables_accepted h aggressive outputs
    let outputs' := outputs.record variableNames (some (.renamed published))
    have hpublished : outputs'.names? variableNames = some published :=
      names?_record hfresh published
    obtain ⟨names, renamed, hfunctions, hrenamed⟩ := renameFunctions_accepted hmiddle hpublished
    refine ⟨outputs'.record renameFunctions.name (some (.renamed names)), renamed, ?_,
      ⟨outputs, published, middle, outputs', names, hvariables, hpublished, hfunctions⟩, hrenamed⟩
    rw [if_pos rfl, Step.performAll, run_bind hvariables, Step.performAll]
    exact run_bind hfunctions

end Steps

/-! ### Runs -/

namespace Options

variable {strict : Bool} {program compiled : Program}

/-- Every selection of steps can be scheduled, in the order in which it is registered. -/
theorem schedule_steps (options : Options) :
    ((options.steps.map Step.toJob).map Job.name).Nodup ∧
      schedule (options.steps.map Step.toJob) = .ok (options.steps.map Step.toJob) := by
  have hall : ∀ aggressive removes merges reduces renames : Bool,
      (((⟨aggressive, removes, merges, reduces, renames, ""⟩ : Options).steps.map
        Step.toJob).map Job.name).Nodup ∧
      schedule ((⟨aggressive, removes, merges, reduces, renames, ""⟩ : Options).steps.map
          Step.toJob) =
        .ok ((⟨aggressive, removes, merges, reduces, renames, ""⟩ : Options).steps.map
          Step.toJob) := by
    decide +kernel
  exact hall options.aggressive options.removeDeadFunctions options.mergeDeclarations
    options.reduceBraces options.minify

theorem run_eq (options : Options) : Step.run options.steps = Step.performAll options.steps {} := by
  obtain ⟨hdistinct, hschedule⟩ := options.schedule_steps
  rw [Step.run, hschedule]
  exact congrArg (Step.performAll · {}) (Step.inOrder_self hdistinct)

/-- The programs that a compilation goes through. -/
structure Course (strict : Bool) (options : Options) (program living merged reduced compiled : Program) :
    Prop where
  removes : program.Passes DeadFunctions.remove options.removeDeadFunctions living
  merges : living.Passes Declarations.mergeAll options.mergeDeclarations merged
  reduces : merged.Passes Braces.reduce options.reduceBraces reduced
  renames : reduced.Renames options.aggressive options.minify compiled
  living : living.Accepted strict
  merged : merged.Accepted strict
  reduced : reduced.Accepted strict
  compiled : compiled.Accepted strict

/-- On accepted trees a run of the steps that the options ask for succeeds. -/
theorem exists_course (options : Options) (h : program.Accepted strict) :
    ∃ outputs compiled, Step.run options.steps program = (.ok outputs, compiled) ∧
      ∃ living merged reduced, options.Course strict program living merged reduced compiled := by
  obtain ⟨outputs₁, living, hrun₁, hremoves, hliving⟩ :=
    Steps.applies_removeDeadFunctions.performAll (DeadFunctions.runs_remove strict) h
      options.removeDeadFunctions {}
  obtain ⟨outputs₂, merged, hrun₂, hmerges, hmerged⟩ :=
    Steps.applies_mergeDeclarations.performAll (Declarations.runs_mergeAll strict) hliving
      options.mergeDeclarations outputs₁
  obtain ⟨outputs₃, reduced, hrun₃, hreduces, hreduced⟩ :=
    Steps.applies_reduceBraces.performAll (Braces.runs_reduce strict) hmerged
      options.reduceBraces outputs₂
  have hfresh : Steps.variableNames ∉ outputs₃.order := by
    rw [Step.order_performAll hrun₃, Step.order_performAll hrun₂, Step.order_performAll hrun₁]
    cases options.removeDeadFunctions <;> cases options.mergeDeclarations <;>
      cases options.reduceBraces <;> decide
  obtain ⟨outputs, compiled, hrun₄, hrenames, hcompiled⟩ :=
    Steps.performAll_renames hreduced options.aggressive options.minify hfresh
  refine ⟨outputs, compiled, ?_, living, merged, reduced,
    ⟨hremoves, hmerges, hreduces, hrenames, hliving, hmerged, hreduced, hcompiled⟩⟩
  rw [run_eq, steps, List.append_assoc, List.append_assoc, Step.performAll_append hrun₁,
    Step.performAll_append hrun₂, Step.performAll_append hrun₃, hrun₄]

end Options

end GlslShrink
