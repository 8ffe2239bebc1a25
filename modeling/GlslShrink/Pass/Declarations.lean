import GlslShrink.Traversal.Editor

/-!
Merging neighbouring declarations of one qualified plain type into one: `float a; float b;` becomes
`float a,b;`.
-/

set_option autoImplicit false

namespace GlslShrink.Declarations

/-- Whether a node declares names of a type that is given by its name. -/
def isPlain (node : Node) : Bool :=
  node.tag == .declaration && !(node.list 1).isEmpty &&
    (node.child? 0).any (fun type => type.tag == .typeName)

/-- Whether the names of `second` can be added to those of `first`. -/
def mergeable (first second : Node) : Bool :=
  isPlain first && isPlain second && first.qualifiers == second.qualifiers &&
    (first.child? 0).map Node.value == (second.child? 0).map Node.value

/-- `first` with the names of `second` added. -/
def merge (first second : Node) : Node :=
  first.withSlot 1 (.many (first.list 1 ++ second.list 1))

/-- Merges the statements of a list that follow `current`, for the new list and the number of
merged declarations. -/
def mergeAfter (current : Node) : List Node → List Node × Nat
  | [] => ([current], 0)
  | node :: nodes =>
    if mergeable current node then
      let (merged, count) := mergeAfter (merge current node) nodes
      (merged, count + 1)
    else
      let (merged, count) := mergeAfter node nodes
      (current :: merged, count)

def mergeList : List Node → List Node × Nat
  | [] => ([], 0)
  | node :: nodes => mergeAfter node nodes

/-- Whether a list has two mergeable neighbours. -/
def hasMergeable : List Node → Bool
  | first :: second :: nodes => mergeable first second || hasMergeable (second :: nodes)
  | _ => false

/-- Merges within the statement list of a rebuilt node. -/
def mergeWithin (node : Node) (change : Change) : Walk Nat Change :=
  let current := change.result node
  if hasMergeable (current.list 0) then do
    let (merged, count) := mergeList (current.list 0)
    modify (· + count)
    return .became (current.withSlot 0 (.many merged))
  else return change

/-- Merges in every statement list; the state counts the declarations merged away. -/
def editor : Editor Nat where
  editing node descend := do
    let change ← descend
    if node.tag = .shader ∨ node.tag = .scope then return some (← mergeWithin node change)
    else return some change

def mergeAll (root : Node) : Except Fault (Change × Nat) :=
  (editor.apply root).runFrom 0

end GlslShrink.Declarations
