import GlslShrink.Analysis.CallGraph
import GlslShrink.Tree.Word

/-!
Which names a shader uses, and as what. Only names whose every use is understood may be renamed: a
name that also stands for something else, or that a directive mentions, keeps its spelling.
-/

set_option autoImplicit false

namespace GlslShrink

structure Census where
  /-- Declared names outside of structures, and named parameters. -/
  variableNames : NameSet := []
  /-- Globals that the host program or the other stage sees. -/
  interface : NameSet := []
  functions : NameSet := []
  structs : NameSet := []
  /-- The types of the interface. -/
  interfaceTypes : NameSet := []
  /-- The types of the members of each named structure. -/
  memberTypes : Links := []
  /-- Names called as functions or constructors. -/
  called : NameSet := []
  types : NameSet := []
  /-- Words in directives. -/
  directiveWords : NameSet := []
  /-- All of these names, and those used in expressions. -/
  names : NameSet := []
  deriving DecidableEq, Repr

namespace Census

/-- The census so far and how many structures are around the current node. -/
structure State where
  census : Census := {}
  structDepth : Nat := 0

/-- The words of a text whose current run starts with `current`, kept in reverse. -/
def runsFrom (current : List Char) : List Char → List (List Char)
  | [] => [current.reverse]
  | c :: rest =>
    if Word.isPart c then runsFrom (c :: current) rest
    else current.reverse :: runsFrom [] rest

/-- Whether a text starts like a word. -/
def startsWord (text : List Char) : Bool :=
  match text with
  | c :: _ => Word.isStart c
  | [] => false

/-- The words of a directive. -/
def wordsOfDirective (text : String) : List String :=
  ((runsFrom [] text.toList).filter startsWord).map String.ofList

/-- The types of the members of a structure. -/
def memberTypesOf (node : Node) : NameSet :=
  NameSet.ofList (((node.list 0).filterMap (·.child? 0)).map Node.value)

def isInterface (node : Node) : Bool :=
  node.qualifiers.any Word.interfaceQualifiers.contains

section Entries

variable (census : Census) (name : String)

def addName : Census :=
  { census with names := census.names.insert name }

def addVariable : Census :=
  { census.addName name with variableNames := census.variableNames.insert name }

def addFunction : Census :=
  { census.addName name with functions := census.functions.insert name }

def addCalled : Census :=
  { census.addName name with called := census.called.insert name }

def addType : Census :=
  { census.addName name with types := census.types.insert name }

def addDirectiveWord : Census :=
  { census.addName name with directiveWords := census.directiveWords.insert name }

def addStruct (members : NameSet) : Census :=
  { census.addName name with
    structs := census.structs.insert name
    memberTypes := census.memberTypes.insert name members }

end Entries

/-- Adds the type and the names of a declaration to the interface. -/
def addInterface (census : Census) (node : Node) : Census :=
  { census with
    interfaceTypes := census.interfaceTypes.insertAll ((node.child? 0).toList.map Node.value)
    interface := census.interface.insertAll ((node.list 1).map Node.value) }

def State.enterStruct (state : State) (node : Node) : State :=
  { census :=
      if node.value = "" then state.census
      else state.census.addStruct node.value (memberTypesOf node)
    structDepth := state.structDepth + 1 }

def State.leaveStruct (state : State) : State :=
  { state with structDepth := state.structDepth - 1 }

def State.update (state : State) (f : Census → Census) : State :=
  { state with census := f state.census }

/-- What is noted on the way into a node. -/
def State.enter (state : State) (node : Node) : State :=
  match node.tag with
  | .structDefinition => state.enterStruct node
  | .declarator => if state.structDepth = 0 then state.update (·.addVariable node.value) else state
  | .parameter => if node.value = "" then state else state.update (·.addVariable node.value)
  | .functionDefinition | .functionPrototype => state.update (·.addFunction node.value)
  | .call => state.update (·.addCalled node.value)
  | .typeName => state.update (·.addType node.value)
  | .identifier => state.update (·.addName node.value)
  | .directive =>
    state.update (fun census => (wordsOfDirective node.value).foldl addDirectiveWord census)
  | _ => state

/-- What is noted of a declaration. Members of structures are no interface of their own. -/
def State.declare (state : State) (node : Node) : State :=
  if isInterface node && state.structDepth == 0 then state.update (·.addInterface node) else state

def visitor : Visitor State where
  before node := modify (·.enter node)
  after node := if node.tag = .structDefinition then modify State.leaveStruct else pure ()
  visiting node descend :=
    if node.tag = .declaration then do
      modify (·.declare node)
      descend
    else descend

def ofNode (root : Node) : Except Fault Census := do
  let state ← visitor.collect {} root
  return state.census

/-- Names that are used as something else than a variable. -/
def pinnedForVariables (census : Census) : NameSet :=
  NameSet.ofList (census.functions ++ census.structs ++ census.called ++ census.types ++
    census.directiveWords ++ [entryPoint])

/-- The variables that may be renamed; those of the interface only if `aggressive`. -/
def renamableVariables (census : Census) (aggressive : Bool) : NameSet :=
  (census.variableNames.without census.pinnedForVariables).filter
    (fun name => aggressive || !census.interface.contains name)

def renamableStructs (census : Census) : NameSet :=
  ((census.structs.without census.variableNames).without census.functions).without
    census.directiveWords

/-- The structures that type the interface, directly or through members. Their names have to be the
same in both stages. -/
def interfaceStructs (census : Census) : NameSet :=
  (census.memberTypes.reachable census.interfaceTypes).filter census.structs.contains

def renamableFunctions (census : Census) : NameSet :=
  ((((census.functions.without [entryPoint]).without census.variableNames).without
    census.structs).without census.types).without census.directiveWords

/-- The names that keep their spelling when `renamed` are renamed. -/
def keptNames (census : Census) (renamed : NameSet) : NameSet :=
  census.names.without renamed

end Census

end GlslShrink
