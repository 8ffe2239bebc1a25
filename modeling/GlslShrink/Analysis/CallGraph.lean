import GlslShrink.Analysis.Reachability
import GlslShrink.Traversal.Visitor

/-!
Which function calls which. Calls outside of every function, as in the initial value of a global,
belong to a function of their own whose name no shader can use.
-/

set_option autoImplicit false

namespace GlslShrink

/-- Where the execution of a shader starts. -/
def entryPoint : String :=
  "main"

namespace CallGraph

/-- The name that calls outside of all functions are listed under. -/
def globalScope : String :=
  "<global>"

/-- The calls found so far and the functions around the current node, the innermost first. -/
structure State where
  calls : Links := [(globalScope, [])]
  enclosing : List String := [globalScope]

/-- Lists a function, without calls if it is new. -/
def addFunction (calls : Links) (name : String) : Links :=
  if calls.contains name then calls else calls.insert name []

def addCall (calls : Links) (caller callee : String) : Links :=
  calls.insert caller (calls.targets caller ++ [callee])

def State.enter (state : State) (name : String) : State :=
  { calls := addFunction state.calls name, enclosing := name :: state.enclosing }

def State.leave (state : State) : State :=
  { state with enclosing := state.enclosing.tail }

def State.record (state : State) (callee : String) : State :=
  { state with calls := addCall state.calls (state.enclosing.headD globalScope) callee }

def visitor : Visitor State where
  before node :=
    if node.tag = .functionDefinition then modify (·.enter node.value) else pure ()
  after node :=
    if node.tag = .functionDefinition then modify State.leave else pure ()
  visiting node descend :=
    if node.tag = .call then do
      modify (·.record node.value)
      descend
    else descend

/-- The calls of a shader, listed by function in the order in which they are written. -/
def ofNode (root : Node) : Except Fault Links := do
  let state ← visitor.collect {} root
  return state.calls

end CallGraph

end GlslShrink
