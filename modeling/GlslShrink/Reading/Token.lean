import GlslShrink.Reading.Reader
import GlslShrink.Tree.Word

/-!
The tokens of a shader. Every token reader also takes the blanks and comments after its token, so a
reader of something larger always starts at a token. Literals and directives keep their spelling.
-/

set_option autoImplicit false

namespace GlslShrink.Token

open Reader

/-- The text after the first `*/`, if there is one. -/
def afterComment? : List Char → Option (List Char)
  | '*' :: '/' :: rest => some rest
  | _ :: rest => afterComment? rest
  | [] => none

theorem length_afterComment?_lt {text rest : List Char} (h : afterComment? text = some rest) :
    rest.length < text.length := by
  fun_induction afterComment? text with
  | case1 more => grind
  | case2 c more _ ih => grind
  | case3 => grind

theorem length_dropWhile_le (test : Char → Bool) (text : List Char) :
    (text.dropWhile test).length ≤ text.length :=
  (List.dropWhile_suffix test).length_le

/-- Drops blanks, line comments and closed block comments from the front of a text. A block comment
that is never closed is not dropped. -/
def skipBlank : List Char → List Char
  | [] => []
  | '/' :: '/' :: rest => skipBlank (rest.dropWhile (· != '\n'))
  | '/' :: '*' :: rest =>
    match _found : afterComment? rest with
    | some after => skipBlank after
    | none => '/' :: '*' :: rest
  | c :: rest => if Text.isBlank c then skipBlank rest else c :: rest
termination_by text => text.length
decreasing_by
  · have := length_dropWhile_le (· != '\n') rest
    grind
  · have := length_afterComment?_lt _found
    grind
  · grind

def blank : Reader Unit := fun text =>
  .read () (skipBlank text)

/-- Reads `p` and the blanks after it. -/
def lexeme {α : Type} (p : Reader α) : Reader α := do
  let a ← p
  blank
  return a

/-- Reads any word, keywords included. -/
def word : Reader String :=
  lexeme do
    let first ← satisfying Word.isStart
    let others ← run Word.isPart
    return String.ofList (first :: others)

def keyword (expected : String) : Reader String :=
  word.guarded (· == expected)

/-- Reads one of the given words. -/
def wordIn (expected : List String) : Reader String :=
  word.guarded expected.contains

/-- Reads a word that can name a symbol or a type. -/
def identifier : Reader String :=
  word.guarded (fun w => !Word.isStructural w)

/-- Reads a punctuation mark. -/
def punct (c : Char) : Reader Unit :=
  lexeme do
    let _ ← exactly c

/-- Reads `=` where it is not the start of `==`. -/
def equals : Reader Unit :=
  lexeme do
    let _ ← exactly '='
    notNext (· == '=')

/-- The operators, longer ones first. -/
def operators : List (List Char) :=
  [['<', '<', '='], ['>', '>', '='],
    ['+', '+'], ['-', '-'], ['<', '<'], ['>', '>'], ['<', '='], ['>', '='], ['=', '='],
    ['!', '='], ['&', '&'], ['|', '|'], ['^', '^'], ['+', '='], ['-', '='], ['*', '='],
    ['/', '='], ['%', '='], ['&', '='], ['|', '='], ['^', '='],
    ['+'], ['-'], ['*'], ['/'], ['%'], ['<'], ['>'], ['&'], ['|'], ['^'], ['!'], ['~'], ['=']]

/-- Reads the first of the given spellings that the text starts with. -/
def oneOf (spellings : List (List Char)) : Reader String := fun text =>
  match spellings with
  | [] => .stuck text
  | spelling :: others =>
    match Text.afterStart? spelling text with
    | some rest => .read (String.ofList spelling) rest
    | none => oneOf others text

/-- Reads the longest operator at the start of the text. -/
def operator : Reader String :=
  lexeme (oneOf operators)

/-- Reads `++` or `--`. -/
def update : Reader String :=
  lexeme (oneOf [['+', '+'], ['-', '-']])

/-- Reads nothing or one of the given characters. -/
def maybe (choices : List Char) : Reader (List Char) :=
  (satisfying choices.contains).branch (fun c => pure [c]) (pure [])

def exponent : Reader (List Char) := do
  let e ← satisfying ['e', 'E'].contains
  let sign ← maybe ['+', '-']
  let digits ← run1 Char.isDigit
  return e :: sign ++ digits

def maybeExponent : Reader (List Char) :=
  exponent.branch pure (pure [])

/-- Digits, a point and further digits. -/
def pointedNumber : Reader (List Char) := do
  let whole ← run1 Char.isDigit
  let point ← exactly '.'
  let fraction ← run Char.isDigit
  let power ← maybeExponent
  return whole ++ point :: fraction ++ power

/-- A point and digits. -/
def fractionNumber : Reader (List Char) := do
  let point ← exactly '.'
  let fraction ← run1 Char.isDigit
  let power ← maybeExponent
  return point :: fraction ++ power

/-- Digits and an exponent. -/
def scaledNumber : Reader (List Char) := do
  let whole ← run1 Char.isDigit
  let power ← exponent
  return whole ++ power

def floatLiteral : Reader String :=
  lexeme do
    let number ← pointedNumber <|> fractionNumber <|> scaledNumber
    let ending ← maybe ['f', 'F']
    notNext Word.isPart
    return String.ofList (number ++ ending)

def isHexDigit (c : Char) : Bool :=
  c.isDigit || ('a' ≤ c && c ≤ 'f') || ('A' ≤ c && c ≤ 'F')

def hexNumber : Reader (List Char) := do
  let lead ← oneOf [['0', 'x'], ['0', 'X']]
  let digits ← run1 isHexDigit
  return lead.toList ++ digits

def intLiteral : Reader String :=
  lexeme do
    let number ← hexNumber <|> run1 Char.isDigit
    let ending ← maybe ['u', 'U']
    notNext (fun c => Word.isPart c || c == '.')
    return String.ofList (number ++ ending)

/-- Reads a directive up to the end of its line, without the white space at the end. -/
def directive : Reader String :=
  lexeme do
    let hash ← exactly '#'
    let text ← run (· != '\n')
    return String.ofList (Text.trimEnd (hash :: text))

end GlslShrink.Token
