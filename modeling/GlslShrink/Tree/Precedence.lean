import GlslShrink.Tree.Node

/-!
How tightly expressions bind. The reader builds trees from these levels, and the printer puts
parentheses around a child that binds looser than its position asks. Higher levels bind tighter.
-/

set_option autoImplicit false

namespace GlslShrink.Precedence

def comma : Nat := 1
def assignment : Nat := 2
def conditional : Nat := 3
def logicalOr : Nat := 4
def unary : Nat := 15
def trailing : Nat := 16
def primary : Nat := 17

/-- The level of a binary operator, the comma included. -/
def ofBinary? : String → Option Nat
  | "," => some comma
  | "||" => some logicalOr
  | "^^" => some 5
  | "&&" => some 6
  | "|" => some 7
  | "^" => some 8
  | "&" => some 9
  | "==" | "!=" => some 10
  | "<" | ">" | "<=" | ">=" => some 11
  | "<<" | ">>" => some 12
  | "+" | "-" => some 13
  | "*" | "/" | "%" => some 14
  | _ => none

def isAssignment (operator : String) : Bool :=
  ["=", "+=", "-=", "*=", "/=", "%=", "<<=", ">>=", "&=", "|=", "^="].contains operator

/-- Whether an operator can stand in front of its only operand. -/
def isLeading (operator : String) : Bool :=
  ["++", "--", "+", "-", "!", "~"].contains operator

/-- The level of an expression, from its category and its operator. -/
def ofTag (tag : Tag) (operator : String) : Nat :=
  match tag with
  | .binary => (ofBinary? operator).getD comma
  | .assignment => assignment
  | .ternary => conditional
  | .unary => unary
  | .postfixUpdate | .call | .fieldSelection | .index => trailing
  | _ => primary

def ofNode (node : Node) : Nat :=
  ofTag node.tag node.value

end GlslShrink.Precedence
