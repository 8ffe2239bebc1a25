import GlslShrink.Analysis.Census
import GlslShrink.Naming.Generator
import GlslShrink.Traversal.Editor

/-!
Short names for variables, parameters and structures. A name that the interface pins in one stage is
pinned in both. The fragment stage takes over the short names of interface globals and interface
structures from the vertex stage and goes on numbering where the vertex stage stopped.
-/

set_option autoImplicit false

namespace GlslShrink.VariableNames

/-- The names that get short ones in a stage. -/
structure Selection where
  variableNames : NameSet
  structs : NameSet

/-- What is renamed, the names handed out so far, and how many structures are around the current
node. -/
structure State where
  selection : Selection
  names : Generator
  structDepth : Nat := 0

/-- Whether the value of a node names a variable that is renamed. Members of structures have a name
space of their own. -/
def State.renames (state : State) (node : Node) : Bool :=
  (node.tag != .declarator || state.structDepth == 0) &&
    state.selection.variableNames.contains node.value

/-- Makes sure that the variable a node declares has a short name. -/
def State.allocate (state : State) (node : Node) : State :=
  if state.renames node then
    { state with names := (state.names.shortenSymbol node.value).2 }
  else state

def State.enterStruct (state : State) (node : Node) : State :=
  let names :=
    if state.selection.structs.contains node.value then
      (state.names.shortenDefinition node.value).2
    else state.names
  { state with names := names, structDepth := state.structDepth + 1 }

def State.leaveStruct (state : State) : State :=
  { state with structDepth := state.structDepth - 1 }

/-- Gives the node a name, if that is another one. -/
def named (node : Node) (change : Change) (name : String) : Change :=
  let current := change.result node
  if current.value = name then change else .became (current.withValue name)

def renameVariable (node : Node) (change : Change) : Walk State Change := do
  let state ← get
  if state.renames node then
    let (short, names) := state.names.shortenSymbol node.value
    set { state with names := names }
    return named node change short
  else return change

def renameStruct (node : Node) (change : Change) : Walk State Change := do
  let state ← get
  if state.selection.structs.contains node.value then
    let (short, names) := state.names.shortenDefinition node.value
    set { state with names := names }
    return named node change short
  else return change

def editor : Editor State where
  before node :=
    match node.tag with
    | .structDefinition => modify (·.enterStruct node)
    | .declarator | .parameter => modify (·.allocate node)
    | _ => pure ()
  after node := if node.tag = .structDefinition then modify State.leaveStruct else pure ()
  editing node descend := do
    let change ← descend
    match node.tag with
    | .declarator | .parameter | .identifier => return some (← renameVariable node change)
    | .structDefinition | .typeName | .call => return some (← renameStruct node change)
    | _ => return some change

/-- Renames the selected names of a tree; also gives the generator afterwards. -/
def rename (selection : Selection) (names : Generator) (root : Node) :
    Except Fault (Change × Generator) := do
  let (change, state) ← (editor.apply root).runFrom { selection := selection, names := names }
  return (change, state.names)

/-- What is renamed in each stage, and the structures of the interface of either. -/
structure Plan where
  vertex : Selection
  fragment : Selection
  interfaceStructs : NameSet

/-- The interface names of a stage that are not among its renamable variables. -/
def pinnedInterface (census : Census) (aggressive : Bool) : NameSet :=
  census.interface.without (census.renamableVariables aggressive)

/-- Whether a structure of a stage can not be renamed there. -/
def pinsStruct (census : Census) (name : String) : Bool :=
  census.structs.contains name && !census.renamableStructs.contains name

/-- The structures of the interface that have to keep their names. -/
def pinnedStructs (aggressive : Bool) (vertex fragment : Census) (interface : NameSet) : NameSet :=
  interface.filter (fun name => !aggressive || pinsStruct vertex name || pinsStruct fragment name)

def plan (aggressive : Bool) (vertex fragment : Census) : Plan :=
  let pinned := (pinnedInterface vertex aggressive).union (pinnedInterface fragment aggressive)
  let interfaceStructs := vertex.interfaceStructs.union fragment.interfaceStructs
  let pinnedTypes := pinnedStructs aggressive vertex fragment interfaceStructs
  let select (census : Census) : Selection :=
    { variableNames := (census.renamableVariables aggressive).without pinned
      structs := census.renamableStructs.without pinnedTypes }
  { vertex := select vertex
    fragment := select fragment
    interfaceStructs := interfaceStructs }

/-- The generator for a stage: names taken over from the other stage are assigned where they are
selected, and the names kept in either stage are not handed out. -/
def generator (selection : Selection) (start : Nat) (exports : NameMap String)
    (vertex fragment : Census) : Generator :=
  let renamed := selection.variableNames.union selection.structs
  let taken := exports.filter (fun (name, _) => renamed.contains name)
  let assigned := taken.foldl (fun names (name, short) => names.assign name short)
    (Generator.startingAt start)
  (assigned.reserveAll (vertex.keptNames renamed)).reserveAll (fragment.keptNames renamed)

/-- The short names that the other stage has to use too. -/
def exports (census : Census) (interfaceStructs : NameSet) (names : Generator) : NameMap String :=
  (census.interface ++ interfaceStructs).foldl (fun exported name =>
    match names.shortened.find? name with
    | some short => exported.insert name short
    | none => exported) []

end GlslShrink.VariableNames
