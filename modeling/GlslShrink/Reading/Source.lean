import GlslShrink.Reading.Statement

/-!
Reading whole texts. The text must be used up; what is wrong is reported at the furthest place that
any attempt reached, or at the start of the construct if no attempt got past it.
-/

set_option autoImplicit false

namespace GlslShrink

/-- What a text is read as. -/
inductive StartRule where
  | shader
  | vertexShader
  | fragmentShader
  | expression
  | statement
  deriving DecidableEq, Repr

/-- What is wrong with a text. -/
inductive Complaint where
  /-- Something else was expected; `found` starts the rest of the line, if there is one. -/
  | expected (what : String) (found : Option String)
  /-- The text cannot go on with this token, or cannot end here. -/
  | unexpected (token : Option String)
  | attributeInFragment
  deriving DecidableEq, Repr

def Complaint.message : Complaint → String
  | expected what none => "expected " ++ what ++ ", found end of input"
  | expected what (some found) => "expected " ++ what ++ ", found '" ++ found ++ "'"
  | unexpected none => "unexpected end of input"
  | unexpected (some token) => "unexpected '" ++ token ++ "'"
  | attributeInFragment => "attribute declarations are not allowed in a fragment shader"

/-- A complaint and the byte of the text where it applies. -/
structure ReadError where
  complaint : Complaint
  position : Nat
  deriving DecidableEq, Repr

namespace ReadError

def message (error : ReadError) : String :=
  "Parse error at position " ++ toString error.position ++ ": " ++ error.complaint.message

/-- The error at the place where `rest` is left of the text. -/
def leaving (source rest : List Char) (complaint : Complaint) : ReadError :=
  ⟨complaint, Text.byteLength source - Text.byteLength rest⟩

/-- Quotes the start of `rest`, at most 24 characters of its first line. -/
def expectedAt (source rest : List Char) (what : String) : ReadError :=
  match (Text.firstLine rest).take 24 with
  | [] => leaving source rest (.expected what none)
  | quoted => leaving source rest (.expected what (some (String.ofList quoted)))

/-- The error for a construct that starts where `start` is left and gets stuck at `place`. -/
def stuckAt (source start place : List Char) (what : String) : ReadError :=
  if start.length ≤ place.length then expectedAt source start what
  else
    match Text.words (Text.firstLine place) with
    | token :: _ => leaving source place (.unexpected (some (String.ofList token)))
    | [] => leaving source place (.unexpected none)

/-- The characters of a text in front of a byte position, unless that is inside of a character. All
of them are in front of a position after the end. -/
def before? (position : Nat) : List Char → Option (List Char)
  | [] => some []
  | c :: rest =>
    if position = 0 then some []
    else if c.utf8Size ≤ position then (before? (position - c.utf8Size) rest).map (c :: ·)
    else none

/-- The line and the column of the error in its text, both counted from one. A position inside of a
character counts as the end. -/
def lineColumn (error : ReadError) (source : String) : Nat × Nat :=
  let passed := (before? error.position source.toList).getD source.toList
  ((passed.filter (· == '\n')).length + 1,
    (passed.reverse.takeWhile (· != '\n')).length + 1)

end ReadError

namespace Source

/-- Reads a text that holds nothing but what `reader` reads. -/
def complete (source : List Char) (reader : Reader Node) (what : String) :
    Except ReadError Node :=
  let start := Token.skipBlank source
  match reader start with
  | .read node [] => .ok node
  | .read _ rest => .error (ReadError.expectedAt source rest "end of input")
  | .stuck place => .error (ReadError.stuckAt source start place what)

/-- Whether a fragment shader must not hold this declaration. -/
def isAttribute (node : Node) : Bool :=
  node.tag == .declaration && node.hasQualifier "attribute"

/-- Reads top-level declarations until the text is used up. Every round reads at least one
character, so `bound` rounds suffice for a text of that length. -/
def topLevels (source : List Char) (isFragment : Bool) :
    Nat → List Char → Except ReadError (List Node)
  | _, [] => .ok []
  | 0, rest => .error (ReadError.expectedAt source rest "a declaration")
  | bound + 1, rest =>
    match Statement.topLevel rest with
    | .stuck place => .error (ReadError.stuckAt source rest place "a declaration")
    | .read node next =>
      if isFragment && isAttribute node then
        .error (ReadError.leaving source rest .attributeInFragment)
      else do
        let others ← topLevels source isFragment bound next
        return node :: others

def shader (source : List Char) (isFragment : Bool) : Except ReadError Node := do
  let declarations ← topLevels source isFragment source.length (Token.skipBlank source)
  return .shader declarations

end Source

/-- Reads a text as the start rule says. -/
def parse (source : String) (rule : StartRule) : Except ReadError Node :=
  let text := source.toList
  match rule with
  | .shader | .vertexShader => Source.shader text false
  | .fragmentShader => Source.shader text true
  | .expression => Source.complete text (Expression.expression .withComma) "an expression"
  | .statement => Source.complete text Statement.statement "a statement"

end GlslShrink
