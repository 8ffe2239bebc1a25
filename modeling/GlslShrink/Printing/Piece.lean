import GlslShrink.Tree.Word

/-!
Putting tokens side by side. A space is written only where two neighbouring tokens would otherwise
be read as one, and a directive gets a line of its own.
-/

set_option autoImplicit false

namespace GlslShrink

/-- A part of a printed text. -/
inductive Piece where
  | token (text : String)
  /-- Text that is written as it is. -/
  | verbatim (text : String)
  | directive (text : String)
  deriving DecidableEq, Repr

namespace Piece

/-- Whether `left` directly followed by `right` would be read differently. -/
def clash (left right : Char) : Bool :=
  (Word.isPart left && Word.isPart right) || (left == '+' && right == '+') ||
    (left == '-' && right == '-')

/-- The space needed between the last character so far and the next one. -/
def gap (last : Option Char) (next : Char) : List Char :=
  match last with
  | some c => if clash c next then [' '] else []
  | none => []

/-- The line feed needed to start a new line after the last character so far. -/
def lineBreak : Option Char → List Char
  | none => []
  | some c => if c = '\n' then [] else ['\n']

/-- The characters a piece adds to a text that ends with `last`. -/
def chars (last : Option Char) : Piece → List Char
  | token text =>
    match text.toList with
    | [] => []
    | c :: rest => gap last c ++ c :: rest
  | verbatim text => text.toList
  | directive text => lineBreak last ++ text.toList ++ ['\n']

/-- The last character of a text that ended with `last` before `added` was written. -/
def lastAfter (last : Option Char) (added : List Char) : Option Char :=
  match added.getLast? with
  | some c => some c
  | none => last

/-- The text of a list of pieces that follow a text ending with `last`. -/
def write (last : Option Char) : List Piece → List Char
  | [] => []
  | piece :: pieces =>
    let added := piece.chars last
    added ++ write (lastAfter last added) pieces

end Piece

end GlslShrink
