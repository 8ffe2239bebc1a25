import GlslShrink.Pass.VariableNames

/-!
Short names for functions. The entry point keeps its name, and so does every function whose name
also stands for a variable, a structure or a type, or occurs in a directive.
-/

set_option autoImplicit false

namespace GlslShrink.FunctionNames

/-- The functions that are renamed and the names handed out so far. -/
structure State where
  functions : NameSet
  names : Generator

def State.allocate (state : State) (node : Node) : State :=
  if state.functions.contains node.value then
    { state with names := (state.names.shortenSymbol node.value).2 }
  else state

def renameFunction (node : Node) (change : Change) : Walk State Change := do
  let state ← get
  if state.functions.contains node.value then
    let (short, names) := state.names.shortenSymbol node.value
    set { state with names := names }
    return VariableNames.named node change short
  else return change

def editor : Editor State where
  before node :=
    match node.tag with
    | .functionDefinition | .functionPrototype => modify (·.allocate node)
    | _ => pure ()
  editing node descend := do
    let change ← descend
    match node.tag with
    | .functionDefinition | .functionPrototype | .call =>
      return some (← renameFunction node change)
    | _ => return some change

/-- The generator for a stage, which does not hand out the names that are kept. -/
def generator (census : Census) (start : Nat) : Generator :=
  (Generator.startingAt start).reserveAll (census.keptNames census.renamableFunctions)

/-- Renames the functions of a tree, numbering from `start`; also gives the generator afterwards. -/
def rename (start : Nat) (root : Node) : Except Fault (Change × Generator) := do
  let census ← Census.ofNode root
  let (change, state) ← (editor.apply root).runFrom
    { functions := census.renamableFunctions, names := generator census start }
  return (change, state.names)

end GlslShrink.FunctionNames
