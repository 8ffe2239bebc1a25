import GlslShrink.Analysis.CallGraph
import GlslShrink.Traversal.Editor

/-!
Removing functions that are never called: those that can be reached neither from the entry point
nor from the initial value of a global go, with all their prototypes.
-/

set_option autoImplicit false

namespace GlslShrink.DeadFunctions

def isFunction (node : Node) : Bool :=
  node.tag == .functionDefinition || node.tag == .functionPrototype

/-- Notes a removed name unless it has been noted before. -/
def note (removed : List String) (name : String) : List String :=
  if removed.contains name then removed else removed ++ [name]

/-- Deletes functions that are not alive; the state lists the names of those it deleted. -/
def editor (alive : NameSet) : Editor (List String) where
  editing node descend :=
    if isFunction node then
      if alive.contains node.value then return some .unchanged
      else do
        modify (note · node.value)
        return none
    else do return some (← descend)

/-- Removes the dead functions of a shader and lists their names in the order of their first
occurrence. -/
def remove (root : Node) : Except Fault (Change × List String) := do
  let calls ← CallGraph.ofNode root
  let alive := calls.reachable [entryPoint, CallGraph.globalScope]
  ((editor alive).apply root).runFrom []

end GlslShrink.DeadFunctions
