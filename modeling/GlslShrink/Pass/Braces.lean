import GlslShrink.Traversal.Editor
import GlslShrink.Tree.Form

/-!
Removing braces that change nothing: around the only statement of a loop or of a branch, and around
a nested block that declares nothing. Braces that keep an `else` with its own `if` stay, and are
put in where they are missing.
-/

set_option autoImplicit false

namespace GlslShrink.Braces

/-- Whether a statement, written without braces, ends with an `if` that a following `else` would
bind to. -/
def endsWithOpenIf : Node → Bool :=
  Node.fold fun node slots =>
    match node.tag with
    | .ifStatement => (Slot.childAt slots 2).getD true
    | .forLoop => (Slot.childAt slots 3).getD false
    | .whileLoop => (Slot.childAt slots 1).getD false
    | _ => false

/-- Whether a statement only makes sense within braces of its own. -/
def needsBlock (node : Node) : Bool :=
  node.tag == .declaration || node.tag == .directive

/-- The statement that can stand for a block, if the braces are not needed. -/
def unwrapped? (block : Node) : Option Node :=
  if block.tag = .scope then
    match block.list 0 with
    | [] => some (.expressionStatement none)
    | [single] => if needsBlock single then none else some single
    | _ => none
  else none

/-- What a statement is replaced by, if anything, and how many pairs of braces that removes. -/
structure Trim where
  replacement : Option Node
  removed : Nat

/-- Takes the braces off a loop body or an `else` branch. -/
def trim (statement : Node) : Trim :=
  match unwrapped? statement with
  | some inner => ⟨some inner, 1⟩
  | none => ⟨none, 0⟩

/-- Takes the braces off the first branch of an `if` that has an `else`. They stay, or are put in,
where the `else` would otherwise go with an inner `if`. -/
def trimBeforeElse (statement : Node) : Trim :=
  if endsWithOpenIf ((unwrapped? statement).getD statement) then
    if statement.tag = .scope then ⟨none, 0⟩ else ⟨some (.scope [statement]), 0⟩
  else trim statement

/-- Trims the child in place `i` of a node that became `change` so far. -/
def trimChild (how : Node → Trim) (node : Node) (i : Nat) (change : Change) : Walk Nat Change :=
  let current := change.result node
  match current.child? i with
  | none => return change
  | some statement => do
    let outcome := how statement
    modify (· + outcome.removed)
    match outcome.replacement with
    | some other => return .became (current.withSlot i (.one other))
    | none => return change

/-- The place of a loop's body. -/
def bodyPlace (tag : Tag) : Nat :=
  match tag with
  | .forLoop => 3
  | .whileLoop => 1
  | _ => 0

def trimBranches (node : Node) (change : Change) : Walk Nat Change := do
  let hasElse := ((change.result node).child? 2).isSome
  let change ← trimChild (if hasElse then trimBeforeElse else trim) node 1 change
  trimChild trim node 2 change

/-- Whether a statement is a block that declares nothing by itself. -/
def dissolves (node : Node) : Bool :=
  node.tag == .scope && !(node.list 0).any (fun inner => inner.tag == .declaration)

/-- The statements of a list with the blocks among them dissolved. -/
def spliced (statements : List Node) : List Node :=
  statements.flatMap (fun node => if dissolves node then node.list 0 else [node])

def splice (node : Node) (change : Change) : Walk Nat Change :=
  let current := change.result node
  let statements := current.list 0
  if statements.any dissolves then do
    modify (· + statements.countP dissolves)
    return .became (current.withSlot 0 (.many (spliced statements)))
  else return change

/-- Removes braces everywhere; the state counts the pairs removed. -/
def editor : Editor Nat where
  editing node descend := do
    let change ← descend
    match node.tag with
    | .forLoop | .whileLoop | .doWhileLoop =>
      return some (← trimChild trim node (bodyPlace node.tag) change)
    | .ifStatement => return some (← trimBranches node change)
    | .scope => return some (← splice node change)
    | _ => return some change

def reduce (root : Node) : Except Fault (Change × Nat) :=
  (editor.apply root).runFrom 0

end GlslShrink.Braces
