import GlslShrink.Pass.Braces
import GlslShrink.Pass.DeadFunctions
import GlslShrink.Pass.Declarations
import GlslShrink.Pass.FunctionNames
import GlslShrink.Pipeline.Step

/-!
The steps that shrink a program, and the compilation that runs them as the options ask.
-/

set_option autoImplicit false

namespace GlslShrink

namespace Steps

/-- The value of a traversal, or its fault as the failure of the step. -/
def lift {α : Type} : Except Fault α → Action Program α
  | .ok a => pure a
  | .error fault => throw (.traversal fault)

/-- Changes the tree of a stage by a pass. -/
def onStage {α : Type} (pass : Node → Except Fault (Change × α)) (stage : Stage) :
    Action Program α := do
  let tree := (← get).tree stage
  let (change, a) ← lift (pass tree)
  modify (·.setTree stage (change.result tree))
  return a

/-- Changes the vertex stage and then the fragment stage by a pass. -/
def onBoth {α : Type} (pass : Node → Except Fault (Change × α)) : Action Program (α × α) := do
  let vertex ← onStage pass .vertex
  let fragment ← onStage pass .fragment
  return (vertex, fragment)

def removeDeadFunctions : Step Program where
  name := "DeadFunctionRemover"
  phase := .optimization
  perform _ := do
    let (vertex, fragment) ← onBoth DeadFunctions.remove
    return some (.removed vertex fragment)

def mergeDeclarations : Step Program where
  name := "DeclarationMerger"
  phase := .consolidation
  perform _ := do
    let (vertex, fragment) ← onBoth Declarations.mergeAll
    return some (.count (vertex + fragment))

def reduceBraces : Step Program where
  name := "BraceReducer"
  phase := .consolidation
  perform _ := do
    let (vertex, fragment) ← onBoth Braces.reduce
    return some (.count (vertex + fragment))

def variableNames : String :=
  "VariableMinifier"

def renameVariables (aggressive : Bool) : Step Program where
  name := variableNames
  phase := .minification
  perform _ := do
    let program ← get
    let vertex ← lift (Census.ofNode program.vertex)
    let fragment ← lift (Census.ofNode program.fragment)
    let plan := VariableNames.plan aggressive vertex fragment
    let names ← onStage (VariableNames.rename plan.vertex
      (VariableNames.generator plan.vertex 0 [] vertex fragment)) .vertex
    let exported := VariableNames.exports vertex plan.interfaceStructs names
    let names' ← onStage (VariableNames.rename plan.fragment
      (VariableNames.generator plan.fragment names.nextIndex exported vertex fragment)) .fragment
    return some (.renamed ⟨names.nextIndex, names'.nextIndex, names.shortened, names'.shortened⟩)

def renameFunctions : Step Program where
  name := "FunctionMinifier"
  phase := .minification
  dependencies := [variableNames]
  perform outputs := do
    let some renamed := outputs.names? variableNames
      | throw (.misconfigured .noVariableNames)
    let names ← onStage (FunctionNames.rename (renamed.next .vertex)) .vertex
    let names' ← onStage (FunctionNames.rename (renamed.next .fragment)) .fragment
    return some (.renamed ⟨names.nextIndex, names'.nextIndex, names.shortened, names'.shortened⟩)

end Steps

/-- Which steps a compilation runs, and what is written between top-level declarations. -/
structure Options where
  /-- Also rename what the host program sees. -/
  aggressive : Bool := false
  removeDeadFunctions : Bool := true
  mergeDeclarations : Bool := true
  reduceBraces : Bool := true
  /-- Rename variables and functions. -/
  minify : Bool := true
  lineSeparator : String := ""
  deriving DecidableEq, Repr

/-- The steps that the options ask for. -/
def Options.steps (options : Options) : List (Step Program) :=
  (if options.removeDeadFunctions then [Steps.removeDeadFunctions] else []) ++
    (if options.mergeDeclarations then [Steps.mergeDeclarations] else []) ++
    (if options.reduceBraces then [Steps.reduceBraces] else []) ++
    (if options.minify then [Steps.renameVariables options.aggressive, Steps.renameFunctions]
      else [])

/-- Reads the source of a stage. -/
def Stage.read (stage : Stage) (source : String) : Except CompileError Node :=
  match parse source stage.startRule with
  | .ok tree => .ok tree
  | .error error => .error (.unreadable stage error)

/-- Reads the sources of both stages, the vertex stage first. -/
def Program.read (vertex fragment : String) : Except CompileError Program := do
  let vertexTree ← Stage.vertex.read vertex
  let fragmentTree ← Stage.fragment.read fragment
  return { vertex := vertexTree, fragment := fragmentTree }

/-- Compiles a pair of sources; also gives what the steps published. -/
def compile (vertex fragment : String) (options : Options) :
    Except CompileError (Program × StepOutputs) := do
  let program ← Program.read vertex fragment
  match (Step.run options.steps) program with
  | (.ok outputs, compiled) => return (compiled, outputs)
  | (.error error, _) => throw error

end GlslShrink
