import GlslShrink.Reading.Token
import GlslShrink.Tree.Form
import GlslShrink.Tree.Precedence

/-!
Expressions. Binary operators are read by climbing the precedence levels, so that operators of one
level associate to the left; assignments and conditionals associate to the right. Parentheses only
steer the shape of the tree and leave no node of their own.

The readers below take as `inner` the reader of the expressions inside brackets and after
operators; `expression` closes the circle.
-/

set_option autoImplicit false

namespace GlslShrink.Expression

open Reader Token

/-- Whether an expression may hold a comma operator outside of all brackets. -/
inductive Breadth where
  | withComma
  | withoutComma
  deriving DecidableEq, Repr

/-- The word `void` alone between parentheses stands for an empty list. -/
def emptyByVoid : Reader (List Node) := do
  let _ ← keyword "void"
  let _ ← (punct ')').ahead
  return []

/-- A call of a function or of a constructor. -/
def call (inner : Breadth → Reader Node) : Reader Node := do
  let name ← identifier
  punct '('
  let arguments ← emptyByVoid <|> separated (punct ',') (inner .withoutComma)
  punct ')'
  return .call name arguments

def parenthesized (inner : Breadth → Reader Node) : Reader Node := do
  punct '('
  let expression ← inner .withComma
  punct ')'
  return expression

def primary (inner : Breadth → Reader Node) : Reader Node :=
  (do return .floatLiteral (← floatLiteral)) <|>
  (do return .intLiteral (← intLiteral)) <|>
  (do let _ ← keyword "true"; return .boolLiteral true) <|>
  (do let _ ← keyword "false"; return .boolLiteral false) <|>
  call inner <|>
  (do return .identifier (← identifier)) <|>
  parenthesized inner

/-- One index, field selection, `++` or `--` after `base`. -/
def trailer (inner : Breadth → Reader Node) (base : Node) : Reader (Option Node) :=
  (punct '[').branch (fun _ => do
    let position ← inner .withComma
    punct ']'
    return some (.index base position)) <|
  (punct '.').branch (fun _ => do
    let field ← word
    return some (.fieldSelection base field)) <|
  update.branch (fun operator => pure (some (.postfixUpdate operator base))) (pure none)

def trailed (inner : Breadth → Reader Node) : Reader Node := do
  let base ← primary inner
  extend (trailer inner) base

def unary (inner : Breadth → Reader Node) : Reader Node :=
  fix (fun again _ =>
    (operator.guarded Precedence.isLeading).branch
      (fun operator => do
        let operand ← again ()
        return .unary operator operand)
      (trailed inner)) ()

/-- Reads a binary operator of level `least` or more, with its level. -/
def operatorFrom (least : Nat) : Reader (String × Nat) := do
  let operator ← operator
  match Precedence.ofBinary? operator with
  | some level => if least ≤ level then return (operator, level) else refuse
  | none => refuse

/-- Operands joined by binary operators of level `least` or more. -/
def binary (inner : Breadth → Reader Node) : Nat → Reader Node :=
  fix (fun again least => do
    let first ← unary inner
    extend (fun left =>
      (operatorFrom least).branch
        (fun (operator, level) => do
          let right ← again (level + 1)
          return some (.binary operator left right))
        (pure none)) first)

def conditional (inner : Breadth → Reader Node) : Reader Node := do
  let condition ← binary inner Precedence.logicalOr
  (punct '?').branch
    (fun _ => do
      let ifTrue ← inner .withComma
      punct ':'
      let ifFalse ← inner .withoutComma
      return .ternary condition ifTrue ifFalse)
    (pure condition)

/-- Reads an assignment operator where `target` can be assigned to. -/
def assignmentTo (target : Node) : Reader String :=
  if Precedence.unary ≤ Precedence.ofNode target then operator.guarded Precedence.isAssignment
  else refuse

def assignment (inner : Breadth → Reader Node) : Reader Node := do
  let target ← conditional inner
  (assignmentTo target).branch
    (fun operator => do
      let value ← inner .withoutComma
      return .assignment operator target value)
    (pure target)

/-- Assignments joined by the comma operator. -/
def commaList (inner : Breadth → Reader Node) : Reader Node := do
  let first ← assignment inner
  extend (fun left =>
    (punct ',').branch
      (fun _ => do
        let right ← assignment inner
        return some (.binary "," left right))
      (pure none)) first

/-- An expression of the given breadth. -/
def expression : Breadth → Reader Node :=
  fix (fun inner breadth =>
    match breadth with
    | .withComma => commaList inner
    | .withoutComma => assignment inner)

end GlslShrink.Expression
