import GlslShrink.Pipeline.Program
import GlslShrink.Pipeline.Schedule
import GlslShrink.Traversal.Walk

/-!
Steps of a compilation and how they are run. A step sees what the steps before it published, works
on a state, and publishes something itself or nothing. A failing step ends the run; the state stays
as that step left it.
-/

set_option autoImplicit false

namespace GlslShrink

/-- The names a renaming gave in both stages, and the numbers of the next names. -/
structure Renaming where
  vertexNext : Nat
  fragmentNext : Nat
  vertex : NameMap String
  fragment : NameMap String
  deriving DecidableEq, Repr

def Renaming.next (names : Renaming) : Stage → Nat
  | .vertex => names.vertexNext
  | .fragment => names.fragmentNext

/-- What a step publishes. -/
inductive StepOutput where
  | removed (vertex fragment : List String)
  | count (n : Nat)
  | renamed (names : Renaming)
  deriving DecidableEq, Repr

/-- What is wrong with the set-up of a compilation. -/
inductive Misconfiguration where
  | schedule (error : ScheduleError)
  /-- A step needs the published names of the renaming of variables. -/
  | noVariableNames
  | other (text : String)
  deriving DecidableEq, Repr

inductive CompileError where
  | unreadable (stage : Stage) (error : ReadError)
  | cycle (path : List String)
  | misconfigured (cause : Misconfiguration)
  | traversal (fault : Fault)
  deriving DecidableEq, Repr

namespace Misconfiguration

def message : Misconfiguration → String
  | schedule (.duplicate name) => "step '" ++ name ++ "' is registered twice"
  | schedule (.unknownDependency name dependency) =>
    "step '" ++ name ++ "' depends on unknown step '" ++ dependency ++ "'"
  | schedule (.laterDependency name phase dependency later) =>
    "step '" ++ name ++ "' (" ++ phase.name ++ ") depends on '" ++ dependency ++
      "' from later phase " ++ later.name
  | schedule (.nothingRunnable phase) => "no runnable step left in phase " ++ phase.name
  | schedule (.cycle path) => String.intercalate "->" path
  | noVariableNames => "FunctionMinifier ran without VariableMinifier output"
  | other text => text

end Misconfiguration

namespace CompileError

def ofSchedule : ScheduleError → CompileError
  | .cycle path => cycle path
  | error => misconfigured (.schedule error)

/-- The names along a cycle with arrows between them. -/
def arrows (path : List String) : String :=
  String.intercalate "->" path

def message : CompileError → String
  | unreadable stage error => stage.name ++ " shader: " ++ error.message
  | cycle path => "dependency cycle between compiler steps: " ++ arrows path
  | misconfigured cause => "configuration error: " ++ cause.message
  | traversal fault => fault.message

end CompileError

/-- The steps that have run, in order, with what they published. -/
structure StepOutputs where
  entries : List (String × Option StepOutput) := []
  deriving DecidableEq, Repr

namespace StepOutputs

def contains (outputs : StepOutputs) (name : String) : Bool :=
  outputs.entries.any (fun entry => entry.1 == name)

def size (outputs : StepOutputs) : Nat :=
  outputs.entries.length

def order (outputs : StepOutputs) : List String :=
  outputs.entries.map Prod.fst

def record (outputs : StepOutputs) (name : String) (output : Option StepOutput) : StepOutputs :=
  ⟨outputs.entries ++ [(name, output)]⟩

/-- The names published by a step, if it published names. -/
def names? (outputs : StepOutputs) (name : String) : Option Renaming :=
  match outputs.entries.lookup name with
  | some (some (.renamed names)) => some names
  | _ => none

end StepOutputs

/-- The effects of a step. A failure keeps the state. -/
abbrev Action (σ : Type) : Type → Type :=
  ExceptT CompileError (StateM σ)

structure Step (σ : Type) extends Job where
  perform : StepOutputs → Action σ (Option StepOutput)

namespace Step

variable {σ τ : Type}

/-- The same step on a state that holds more. -/
def onFirst (step : Step σ) : Step (σ × τ) where
  toJob := step.toJob
  perform outputs := fun (state, other) =>
    let (result, state') := step.perform outputs state
    (result, (state', other))

/-- Performs steps one after the other. -/
def performAll : List (Step σ) → StepOutputs → Action σ StepOutputs
  | [], outputs => pure outputs
  | step :: steps, outputs => do
    let output ← step.perform outputs
    performAll steps (outputs.record step.name output)

/-- Schedules and performs the registered steps. If they can not be scheduled, none is performed. -/
def run (steps : List (Step σ)) : Action σ StepOutputs := do
  match schedule (steps.map Step.toJob) with
  | .error error => throw (CompileError.ofSchedule error)
  | .ok jobs =>
    performAll (jobs.filterMap (fun job => steps.find? (fun step => step.name == job.name))) {}

end Step

end GlslShrink
