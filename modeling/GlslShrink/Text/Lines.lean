import GlslShrink.Text.Space

/-!
Cutting text into lines and words. A line ends at a line feed, and one carriage return right before
the line feed belongs to the ending. Text after the last line feed is a line of its own unless it
is empty, so that a final line feed opens no further line.
-/

set_option autoImplicit false

namespace GlslShrink.Text

/-- Drops the carriage return in front of a reversed line. -/
def dropReturn : List Char → List Char
  | '\r' :: rest => rest
  | line => line

/-- The lines of a text whose current line starts with `current`, kept in reverse. -/
def linesFrom (current : List Char) : List Char → List (List Char)
  | [] => if current.isEmpty then [] else [current.reverse]
  | c :: rest =>
    if c = '\n' then (dropReturn current).reverse :: linesFrom [] rest
    else linesFrom (c :: current) rest

def lines (text : List Char) : List (List Char) :=
  linesFrom [] text

def firstLine (text : List Char) : List Char :=
  (lines text).headD []

/-- The words of a text whose current word starts with `current`, kept in reverse. -/
def wordsFrom (current : List Char) : List Char → List (List Char)
  | [] => if current.isEmpty then [] else [current.reverse]
  | c :: rest =>
    if isSpace c then
      if current.isEmpty then wordsFrom [] rest else current.reverse :: wordsFrom [] rest
    else wordsFrom (c :: current) rest

/-- The runs of characters between white space. -/
def words (text : List Char) : List (List Char) :=
  wordsFrom [] text

def trimStart (text : List Char) : List Char :=
  text.dropWhile isSpace

def trimEnd (text : List Char) : List Char :=
  (text.reverse.dropWhile isSpace).reverse

def trim (text : List Char) : List Char :=
  trimEnd (trimStart text)

/-- What follows `start` in a text that starts with it. -/
def afterStart? (start : List Char) (text : List Char) : Option (List Char) :=
  match start, text with
  | [], rest => some rest
  | _ :: _, [] => none
  | a :: start, b :: rest => if a = b then afterStart? start rest else none

def startsWith (start text : List Char) : Bool :=
  (afterStart? start text).isSome

/-- The number of bytes a text takes in UTF-8. -/
def byteLength : List Char → Nat
  | [] => 0
  | c :: rest => c.utf8Size + byteLength rest

end GlslShrink.Text
