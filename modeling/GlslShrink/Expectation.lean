import GlslShrink.Text.Lines

/-!
Files of inputs with expected outputs. After a line that names the test, every run of input lines
followed by lines that start with a semicolon is one case. Blank lines between cases belong to none
of them, and a run of input lines without expectations is dropped.
-/

set_option autoImplicit false

namespace GlslShrink

/-- An input with the output expected for it. -/
structure Expectation where
  /-- The line that names the test. -/
  command : String
  source : String
  expected : String
  /-- The line of the file where the input starts, counted from one. -/
  line : Nat
  deriving DecidableEq, Repr

namespace Expectation

/-- The words of the command after the kind of test. -/
def arguments (expectation : Expectation) : List String :=
  ((Text.words expectation.command.toList).drop 2).map String.ofList

/-- A case that is being read: its input and expected lines, and the index of its first line. -/
structure Draft where
  source : List (List Char) := []
  expected : List (List Char) := []
  start : Nat := 0

namespace Draft

def joined (lines : List (List Char)) : String :=
  String.ofList (List.intercalate ['\n'] lines)

def finish (draft : Draft) (command : String) : Expectation where
  command := command
  source := joined draft.source
  expected := joined draft.expected
  line := draft.start + 1

/-- The case, if something is expected of it. -/
def finish? (draft : Draft) (command : String) : List Expectation :=
  if draft.expected.isEmpty then [] else [draft.finish command]

def addSource (draft : Draft) (index : Nat) (line : List Char) : Draft :=
  { draft with
    source := draft.source ++ [line]
    start := if draft.source.isEmpty then index else draft.start }

def addExpected (draft : Draft) (line : List Char) : Draft :=
  { draft with expected := draft.expected ++ [line] }

/-- Whether a blank line belongs to no case: before the input starts, or among expectations. -/
def skipsBlank (draft : Draft) : Bool :=
  draft.source.isEmpty || !draft.expected.isEmpty

end Draft

/-- The text of an expectation line without its semicolon, one space after it, and the white space
at its end. -/
def expectedText? (line : List Char) : Option (List Char) :=
  match line with
  | ';' :: ' ' :: rest => some (Text.trimEnd rest)
  | ';' :: rest => some (Text.trimEnd rest)
  | _ => none

/-- The cases in the lines from index `index` on, after the part of a case in `draft`. -/
def casesFrom (command : String) (draft : Draft) (index : Nat) :
    List (List Char) → List Expectation
  | [] => draft.finish? command
  | line :: lines =>
    match expectedText? line with
    | some text => casesFrom command (draft.addExpected text) (index + 1) lines
    | none =>
      if (Text.trim line).isEmpty && draft.skipsBlank then
        casesFrom command draft (index + 1) lines
      else if draft.expected.isEmpty then
        casesFrom command (draft.addSource index line) (index + 1) lines
      else
        draft.finish command ::
          casesFrom command (({ start := draft.start } : Draft).addSource index line) (index + 1) lines

def isCommand (line : List Char) : Bool :=
  Text.startsWith ['t', 'e', 's', 't', ' '] (Text.trim line)

/-- The cases in the lines from index `index` on, of which the first command line has not been
read. -/
def casesAfterCommand (index : Nat) : List (List Char) → List Expectation
  | [] => []
  | line :: lines =>
    if isCommand line then casesFrom (String.ofList (Text.trim line)) {} (index + 1) lines
    else casesAfterCommand (index + 1) lines

/-- The cases of a file. -/
def ofFile (content : String) : List Expectation :=
  casesAfterCommand 0 (Text.lines content.toList)

/-- The lines of a text without white space around them, blank ones left out. -/
def normalizedLines (text : String) : List String :=
  (((Text.lines text.toList).map Text.trim).filter (fun line => !line.isEmpty)).map String.ofList

/-- How a line starts that asks for a match instead of the exact text. -/
def matchKeywords : List (List Char) :=
  ["check:", "sameln:", "nextln:", "unordered:", "not:", "regex:"].map String.toList

/-- Whether an expected text asks for matches instead of the exact text. -/
def asksForMatches (expected : String) : Bool :=
  (Text.lines expected.toList).any (fun line =>
    matchKeywords.any (fun keyword => Text.startsWith keyword (Text.trim line)))

/-- Compares an output with the exact text that is expected, up to indentation and blank lines. -/
def compare (expected actual : String) : Except String Unit :=
  if normalizedLines actual = normalizedLines expected then .ok ()
  else .error ("Expected:\n" ++ expected ++ "\n\nActual:\n" ++ actual)

end Expectation

end GlslShrink
