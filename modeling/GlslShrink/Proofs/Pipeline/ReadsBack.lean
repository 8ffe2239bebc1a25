import GlslShrink.Pipeline.Compile
import GlslShrink.Proofs.Pass.Braces
import GlslShrink.Proofs.Pass.DeadFunctions
import GlslShrink.Proofs.Pass.Declarations
import GlslShrink.Proofs.Pass.Renaming
import GlslShrink.Proofs.RoundTrip.Shader

/-!
The text of a compiled program is read back as that program. Both trees of a program that was read
can be printed (`Program.Prints`), every step of a compilation keeps them so, and hence so does
every run of steps, in whatever order they are scheduled (`Step.keeps_run`). What can be printed is
read back.
-/

set_option autoImplicit false

namespace GlslShrink

/-! ### What a run keeps -/

/-- Successful runs of the action lead from states with the property to states with it. -/
def Keeps {σ α : Type} (P : σ → Prop) (action : Action σ α) : Prop :=
  ∀ {s s' a}, P s → action s = (.ok a, s') → P s'

section Keeps

variable {σ α β : Type} {P : σ → Prop}

theorem keeps_pure (a : α) : Keeps P (pure a : Action σ α) := by
  intro s s' a hs hrun
  cases hrun
  exact hs

theorem keeps_throw (error : CompileError) : Keeps P (throw error : Action σ α) := by
  intro s s' a hs hrun
  cases hrun

theorem keeps_bind {x : Action σ α} {f : α → Action σ β} (hx : Keeps P x)
    (hf : ∀ a, Keeps P (f a)) : Keeps P (x >>= f) := by
  intro s s' b hs hrun
  obtain ⟨a, middle, hfirst, hrest⟩ := run_bind_inv hrun
  exact hf a (hx hs hfirst) hrest

/-- What every one of the steps keeps, performing them one after the other keeps. -/
theorem Step.keeps_performAll {steps : List (Step σ)}
    (h : ∀ step ∈ steps, ∀ outputs, Keeps P (step.perform outputs)) (outputs : StepOutputs) :
    Keeps P (performAll steps outputs) := by
  induction steps generalizing outputs with
  | nil => exact keeps_pure outputs
  | cons step steps ih =>
    obtain ⟨hstep, hsteps⟩ := List.forall_mem_cons.mp h
    exact keeps_bind (hstep outputs) fun output => ih hsteps (outputs.record step.name output)

/-- What every registered step keeps, a run of them keeps, however they are scheduled. -/
theorem Step.keeps_run {steps : List (Step σ)}
    (h : ∀ step ∈ steps, ∀ outputs, Keeps P (step.perform outputs)) : Keeps P (run steps) := by
  unfold run
  split
  · exact keeps_throw _
  · refine keeps_performAll (fun step hstep => ?_) {}
    obtain ⟨job, -, hfound⟩ := List.mem_filterMap.mp hstep
    exact h step (List.mem_of_find?_eq_some hfound)

end Keeps

/-! ### Programs that can be printed -/

/-- The tree passes all checks and can be read in the stage. -/
structure Stage.Prints (stage : Stage) (root : Node) : Prop where
  tag : root.tag = .shader
  fits : root.Every Node.Fits
  noAttribute : stage = .fragment → ∀ node ∈ root.list 0, Source.isAttribute node = false

/-- The trees of both stages pass all checks. -/
def Program.Prints (program : Program) : Prop :=
  ∀ stage : Stage, stage.Prints (program.tree stage)

theorem Stage.parse_eq (stage : Stage) (source : String) :
    parse source stage.startRule = Source.shader source.toList (decide (stage = .fragment)) := by
  cases stage <;> rfl

namespace Stage.Prints

variable {stage : Stage} {root : Node}

theorem stays (h : stage.Prints root) {new : Node} (hstays : root.StaysPrintable new) :
    stage.Prints new where
  tag := hstays.tag.trans h.tag
  fits := hstays.fits
  noAttribute hfragment node hnode := by
    obtain ⟨node', hnode', htag, hqualifiers⟩ := hstays.topLevel node hnode
    have hother := h.noAttribute hfragment node' hnode'
    rwa [Source.isAttribute, Node.hasQualifier, htag, hqualifiers]

/-- What is read in a stage and has no ambiguous nodes can be printed. -/
theorem of_parse {source : String} (hread : parse source stage.startRule = .ok root)
    (hunambiguous : root.preorder.all Node.isUnambiguous = true) : stage.Prints root := by
  rw [parse_eq] at hread
  obtain ⟨htag, hsound, hattributes⟩ := Source.shader_sound hread
  refine ⟨htag, fun node hnode => ?_, fun hfragment => hattributes (decide_eq_true hfragment)⟩
  obtain ⟨hgrammar, helse⟩ := hsound node hnode
  exact ⟨hgrammar, List.all_eq_true.mp hunambiguous node hnode, helse⟩

/-- A tree that can be printed is read back from its text. -/
theorem parse_render (h : stage.Prints root) {separator : String}
    (hseparator : ∀ c ∈ separator.toList, Text.isBlank c = true) :
    ∃ read, parse (root.render separator) stage.startRule = .ok read ∧
      read.sameShape root = true := by
  refine ⟨root.bare, ?_, by rw [Node.sameShape_iff, Node.bare_bare]⟩
  rw [parse_eq]
  exact shader_render h.tag h.fits hseparator fun hfragment =>
    h.noAttribute (of_decide_eq_true hfragment)

end Stage.Prints

/-! ### Steps -/

namespace Steps

variable {α : Type} {pass : Node → Except Fault (Change × α)}

theorem keeps_onStage (hpass : Node.KeepsPrintable pass) (stage : Stage) :
    Keeps Program.Prints (onStage pass stage) := by
  intro program program' a hprints hrun
  cases hresult : pass (program.tree stage) with
  | error fault =>
    have hget : (get : Action Program Program) program = (.ok program, program) := rfl
    have hlift : (lift (pass (program.tree stage)) : Action Program (Change × α)) program =
        (.error (.traversal fault), program) := by
      rw [hresult]
      rfl
    rw [onStage, run_bind hget, run_bind_error hlift] at hrun
    cases hrun
  | ok result =>
    obtain ⟨change, a'⟩ := result
    rw [onStage_run hresult] at hrun
    cases hrun
    intro other
    by_cases hother : other = stage
    · subst hother
      rw [Program.tree_setTree_self]
      have hstage := hprints other
      exact hstage.stays (hpass hstage.tag hstage.fits hresult)
    · rw [Program.tree_setTree_of_ne hother]
      exact hprints other

theorem keeps_onBoth (hpass : Node.KeepsPrintable pass) :
    Keeps Program.Prints (onBoth pass) := by
  unfold onBoth
  refine keeps_bind (keeps_onStage hpass .vertex) fun vertex => ?_
  exact keeps_bind (keeps_onStage hpass .fragment) fun fragment => keeps_pure (vertex, fragment)

variable (outputs : StepOutputs)

theorem keeps_removeDeadFunctions :
    Keeps Program.Prints (removeDeadFunctions.perform outputs) :=
  keeps_bind (keeps_onBoth DeadFunctions.keepsPrintable_remove) fun _ => keeps_pure _

theorem keeps_mergeDeclarations : Keeps Program.Prints (mergeDeclarations.perform outputs) :=
  keeps_bind (keeps_onBoth Declarations.keepsPrintable_mergeAll) fun _ => keeps_pure _

theorem keeps_reduceBraces : Keeps Program.Prints (reduceBraces.perform outputs) :=
  keeps_bind (keeps_onBoth Braces.keepsPrintable_reduce) fun _ => keeps_pure _

theorem keeps_renameVariables (aggressive : Bool) :
    Keeps Program.Prints ((renameVariables aggressive).perform outputs) := by
  intro program program' output hprints hrun
  have hgrammar : ∀ stage, (program.tree stage).Grammatical := fun stage =>
    (hprints stage).fits.imp fun _ hnode => hnode.1
  obtain ⟨names, compiled, hrun', hrenamed⟩ := VariableNames.renameVariables_run aggressive hgrammar
    (fun stage => Census.ofNode_eq (hgrammar stage).fitsLayout) outputs
  cases hrun'.symm.trans hrun
  intro stage
  exact (hprints stage).stays (VariableNames.staysPrintable_stages hrenamed stage
    (hprints stage).fits)

theorem keeps_renameFunctions : Keeps Program.Prints (renameFunctions.perform outputs) := by
  simp only [renameFunctions]
  cases outputs.names? variableNames with
  | none => exact keeps_throw _
  | some renamed =>
    refine keeps_bind (keeps_onStage (FunctionNames.keepsPrintable_rename _) .vertex) fun _ => ?_
    exact keeps_bind (keeps_onStage (FunctionNames.keepsPrintable_rename _) .fragment) fun _ =>
      keeps_pure _

end Steps

/-- Every step that options can ask for keeps programs printable. -/
theorem Options.keeps_steps (options : Options) :
    ∀ step ∈ options.steps, ∀ outputs, Keeps Program.Prints (step.perform outputs) := by
  intro step hstep outputs
  simp only [Options.steps, List.mem_append, List.mem_ite_nil_right, List.mem_cons,
    List.not_mem_nil, or_false] at hstep
  rcases hstep with ((⟨-, rfl⟩ | ⟨-, rfl⟩) | ⟨-, rfl⟩) | ⟨-, rfl | rfl⟩
  · exact Steps.keeps_removeDeadFunctions outputs
  · exact Steps.keeps_mergeDeclarations outputs
  · exact Steps.keeps_reduceBraces outputs
  · exact Steps.keeps_renameVariables outputs options.aggressive
  · exact Steps.keeps_renameFunctions outputs

/-! ### Compilation -/

theorem run_of_compile {vertex fragment : String} {options : Options} {program compiled : Program}
    {outputs : StepOutputs} (hread : Program.read vertex fragment = .ok program)
    (hcompile : compile vertex fragment options = .ok (compiled, outputs)) :
    Step.run options.steps program = (.ok outputs, compiled) := by
  simp only [compile, hread, bind, Except.bind] at hcompile
  split at hcompile
  · rename_i outputs' compiled' hrun
    cases hcompile
    exact hrun
  · cases hcompile

/-- The text of a compiled program is read back as that program, whatever steps were run. The
sources must not have nodes that print like others: a field of an integer literal, an array size
with a comma or an assignment, `void` as the only argument. -/
theorem compile_readsBack {vertex fragment : String} {options : Options}
    {program compiled : Program} {outputs : StepOutputs}
    (hread : Program.read vertex fragment = .ok program)
    (hunambiguous : ∀ stage, (program.tree stage).preorder.all Node.isUnambiguous = true)
    (hseparator : ∀ c ∈ options.lineSeparator.toList, Text.isBlank c = true)
    (hcompile : compile vertex fragment options = .ok (compiled, outputs)) (stage : Stage) :
    ∃ read, parse (compiled.render stage options.lineSeparator) stage.startRule = .ok read ∧
      read.sameShape (compiled.tree stage) = true := by
  have hprints : program.Prints := fun stage => by
    obtain ⟨source, hsource⟩ := Program.exists_source hread stage
    exact .of_parse hsource (hunambiguous stage)
  have hcompiled : compiled.Prints :=
    Step.keeps_run options.keeps_steps hprints (run_of_compile hread hcompile)
  exact (hcompiled stage).parse_render hseparator

/-- The braces around the inner `if` stay, those around the assignment go, and the function that is
never called goes too. -/
theorem compile_readsBack_nestedIf :
    ∃ program compiled outputs,
      Program.read "attribute vec4 p;void main(){if(p.x>0.){if(p.y>0.)p;}else{gl_Position=-p;}}"
        "uniform float u;void f(){}void main(){float a=u;float b=a;}" = .ok program ∧
      compile "attribute vec4 p;void main(){if(p.x>0.){if(p.y>0.)p;}else{gl_Position=-p;}}"
        "uniform float u;void f(){}void main(){float a=u;float b=a;}" { lineSeparator := "\n" } =
          .ok (compiled, outputs) ∧
      ∀ stage : Stage,
        ∃ read, parse (compiled.render stage "\n") stage.startRule = .ok read ∧
          read.sameShape (compiled.tree stage) = true := by
  have hreads : (Program.read
      "attribute vec4 p;void main(){if(p.x>0.){if(p.y>0.)p;}else{gl_Position=-p;}}"
      "uniform float u;void f(){}void main(){float a=u;float b=a;}").toOption.any (fun program =>
        program.vertex.preorder.all Node.isUnambiguous &&
          program.fragment.preorder.all Node.isUnambiguous) = true := by
    decide +kernel
  have hcompiles : (compile
      "attribute vec4 p;void main(){if(p.x>0.){if(p.y>0.)p;}else{gl_Position=-p;}}"
      "uniform float u;void f(){}void main(){float a=u;float b=a;}"
      { lineSeparator := "\n" }).toOption.any (fun _ => true) = true := by
    decide +kernel
  obtain ⟨program, hread, hunambiguous⟩ := exists_ok_of_any hreads
  obtain ⟨⟨compiled, outputs⟩, hcompile, -⟩ := exists_ok_of_any hcompiles
  rw [Bool.and_eq_true] at hunambiguous
  have hstages : ∀ stage, (program.tree stage).preorder.all Node.isUnambiguous = true := by
    intro stage
    cases stage with
    | vertex => exact hunambiguous.1
    | fragment => exact hunambiguous.2
  have hback := compile_readsBack hread hstages (forall_mem_of_all rfl) hcompile
  exact ⟨program, compiled, outputs, hread, hcompile, hback⟩

end GlslShrink
