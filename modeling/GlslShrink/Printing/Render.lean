import GlslShrink.Printing.Piece
import GlslShrink.Tree.Precedence

/-!
Printing trees as source text, with as few characters as the tree allows. How a node is written
depends on the part it plays, so the pieces of a node are worked out once for every part it could
play, from those of its children. Nodes with missing or surplus children are printed too: what is
not there leaves nothing, or a semicolon where a statement belongs.
-/

set_option autoImplicit false

namespace GlslShrink

/-- The pieces of a node in each of the parts it can play. -/
structure Sketch where
  tag : Tag
  level : Nat
  /-- As an expression, without parentheses around it. -/
  operation : List Piece
  statement : List Piece
  declaration : List Piece
  specifier : List Piece
  declarator : List Piece
  parameter : List Piece

namespace Sketch

open Piece

/-- As an expression where at least the level `least` is asked for. -/
def expression (sketch : Sketch) (least : Nat) : List Piece :=
  if sketch.level < least then token "(" :: sketch.operation ++ [token ")"]
  else sketch.operation

def tokens (texts : List String) : List Piece :=
  texts.map token

/-- What `f` makes of something that is there, and nothing otherwise. -/
def ifAny {α : Type} (f : α → List Piece) : Option α → List Piece
  | some a => f a
  | none => []

/-- The parts with commas between them. -/
def commaSeparated (parts : List (List Piece)) : List Piece :=
  (parts.intersperse [token ","]).flatten

def operand (child : Option Sketch) (least : Nat) : List Piece :=
  ifAny (fun sketch => sketch.expression least) child

def arraySize (size : Option Sketch) : List Piece :=
  ifAny (fun sketch => token "[" :: sketch.expression Precedence.comma ++ [token "]"]) size

def condition (test : Option Sketch) : List Piece :=
  token "(" :: operand test Precedence.comma ++ [token ")"]

/-- A statement, or a semicolon where it is missing. -/
def statementOrEmpty : Option Sketch → List Piece
  | some sketch => sketch.statement
  | none => [token ";"]

/-- The first part of a loop header with its semicolon. -/
def loopStart : Option Sketch → List Piece
  | some sketch =>
    if sketch.tag = .declaration then sketch.declaration
    else sketch.expression Precedence.comma ++ [token ";"]
  | none => [token ";"]

def operationOf (node : Node) (slots : List (Slot Sketch)) : List Piece :=
  let own := Precedence.ofNode node
  let child := Slot.childAt slots
  match node.tag with
  | .binary => operand (child 0) own ++ token node.value :: operand (child 1) (own + 1)
  | .assignment => operand (child 0) (own + 1) ++ token node.value :: operand (child 1) own
  | .ternary =>
    operand (child 0) Precedence.logicalOr ++ token "?" :: operand (child 1) Precedence.comma ++
      token ":" :: operand (child 2) Precedence.conditional
  | .unary => token node.value :: operand (child 0) Precedence.unary
  | .postfixUpdate => operand (child 0) Precedence.trailing ++ [token node.value]
  | .call =>
    token node.value :: token "(" ::
      commaSeparated ((Slot.listAt slots 0).map (·.expression Precedence.assignment)) ++
      [token ")"]
  | .fieldSelection =>
    operand (child 0) Precedence.trailing ++ [token ".", token node.value]
  | .index =>
    operand (child 0) Precedence.trailing ++ token "[" :: operand (child 1) Precedence.comma ++
      [token "]"]
  | _ => [token node.value]

def specifierOf (node : Node) (slots : List (Slot Sketch)) : List Piece :=
  if node.tag = .structDefinition then
    token "struct" :: token node.value :: token "\x7b" ::
      ((Slot.listAt slots 0).map Sketch.declaration).flatten ++ [token "\x7d"]
  else [token node.value]

def declaratorOf (node : Node) (slots : List (Slot Sketch)) : List Piece :=
  token node.value :: arraySize (Slot.childAt slots 0) ++
    ifAny (fun sketch => token "=" :: sketch.expression Precedence.assignment)
      (Slot.childAt slots 1)

def typeOf (slots : List (Slot Sketch)) : List Piece :=
  ifAny Sketch.specifier (Slot.childAt slots 0)

def parameterOf (node : Node) (slots : List (Slot Sketch)) : List Piece :=
  tokens node.qualifiers ++ typeOf slots ++ token node.value :: arraySize (Slot.childAt slots 1)

/-- A declaration with its semicolon. -/
def declarationOf (node : Node) (slots : List (Slot Sketch)) : List Piece :=
  tokens node.qualifiers ++ typeOf slots ++
    commaSeparated ((Slot.listAt slots 1).map Sketch.declarator) ++ [token ";"]

def functionHeader (node : Node) (slots : List (Slot Sketch)) : List Piece :=
  tokens node.qualifiers ++ typeOf slots ++ token node.value :: token "(" ::
    commaSeparated ((Slot.listAt slots 1).map Sketch.parameter) ++ [token ")"]

/-- A top-level declaration and what separates it from the next one. -/
def separatedBy (separator : String) (sketch : Sketch) : List Piece :=
  if sketch.tag = .directive then sketch.statement
  else sketch.statement ++ [verbatim separator]

def statementOf (separator : String) (node : Node) (slots : List (Slot Sketch)) : List Piece :=
  let child := Slot.childAt slots
  match node.tag with
  | .shader => ((Slot.listAt slots 0).map (separatedBy separator)).flatten
  | .directive => [directive node.value]
  | .precision =>
    token "precision" :: tokens node.qualifiers ++ typeOf slots ++ [token ";"]
  | .declaration => declarationOf node slots
  | .functionPrototype => functionHeader node slots ++ [token ";"]
  | .functionDefinition => functionHeader node slots ++ ifAny Sketch.statement (child 2)
  | .scope =>
    token "\x7b" :: ((Slot.listAt slots 0).map Sketch.statement).flatten ++ [token "\x7d"]
  | .expressionStatement => operand (child 0) Precedence.comma ++ [token ";"]
  | .ifStatement =>
    token "if" :: condition (child 0) ++ statementOrEmpty (child 1) ++
      ifAny (fun sketch => token "else" :: sketch.statement) (child 2)
  | .forLoop =>
    token "for" :: token "(" :: loopStart (child 0) ++ operand (child 1) Precedence.comma ++
      token ";" :: operand (child 2) Precedence.comma ++ token ")" :: statementOrEmpty (child 3)
  | .whileLoop => token "while" :: condition (child 0) ++ statementOrEmpty (child 1)
  | .doWhileLoop =>
    token "do" :: statementOrEmpty (child 0) ++ token "while" :: condition (child 1) ++
      [token ";"]
  | .returnStatement => token "return" :: operand (child 0) Precedence.comma ++ [token ";"]
  | .jump => [token node.value, token ";"]
  | _ => operationOf node slots ++ [token ";"]

/-- The sketch of a node from those of its children. -/
def ofNode (separator : String) (node : Node) (slots : List (Slot Sketch)) : Sketch where
  tag := node.tag
  level := Precedence.ofNode node
  operation := operationOf node slots
  statement := statementOf separator node slots
  declaration := declarationOf node slots
  specifier := specifierOf node slots
  declarator := declaratorOf node slots
  parameter := parameterOf node slots

end Sketch

def Node.sketch (separator : String) : Node → Sketch :=
  Node.fold (Sketch.ofNode separator)

def Node.pieces (separator : String) (node : Node) : List Piece :=
  let sketch := node.sketch separator
  if node.tag.isExpression then sketch.expression Precedence.comma else sketch.statement

/-- The source text of a tree; `separator` follows every top-level declaration. -/
def Node.render (separator : String) (node : Node) : String :=
  String.ofList (Piece.write none (node.pieces separator))

end GlslShrink
