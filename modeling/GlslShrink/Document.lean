import GlslShrink.Pipeline.Program

/-!
Documents that hold both stages in one text, each after a line that marks it. A marker line may end
with white space, and only blank lines may come before the marker of the vertex stage. Splitting
goes by lines, so a source comes back with a line feed at its end, and a section that holds one empty
line comes back empty.
-/

set_option autoImplicit false

namespace GlslShrink

/-- The line in front of the source of a stage. -/
def Stage.marker : Stage → String
  | vertex => "//! VERTEX"
  | fragment => "//! FRAGMENT"

/-- The sources of both stages. -/
structure Document where
  vertex : String
  fragment : String
  deriving DecidableEq, Repr

/-- Why a text is not a document. -/
inductive DocumentError where
  | missingMarker (stage : Stage)
  | markersOutOfOrder
  /-- There is text in the given line, counted from one, before the first marker. -/
  | textBeforeVertex (line : Nat)
  deriving DecidableEq, Repr

def DocumentError.message : DocumentError → String
  | missingMarker stage => "missing `" ++ stage.marker ++ "` marker line"
  | markersOutOfOrder =>
    "`" ++ Stage.fragment.marker ++ "` marker appears before `" ++ Stage.vertex.marker ++ "`"
  | textBeforeVertex line =>
    "line " ++ toString line ++ ": text before `" ++ Stage.vertex.marker ++ "` marker"

namespace Document

/-- A text with a line feed at its end, if it has none. -/
def ended (text : List Char) : List Char :=
  if text.getLast? = some '\n' then text else text ++ ['\n']

def sectionText (stage : Stage) (source : String) : List Char :=
  stage.marker.toList ++ '\n' :: ended source.toList

def toText (document : Document) : String :=
  String.ofList (sectionText .vertex document.vertex ++ sectionText .fragment document.fragment)

def isMarker (stage : Stage) (line : List Char) : Bool :=
  Text.trimEnd line == stage.marker.toList

/-- The index of the first line that marks the stage. -/
def markerIndex? (lines : List (List Char)) (stage : Stage) : Option Nat :=
  lines.findIdx? (isMarker stage)

/-- The indices of the two marker lines. -/
def locate (lines : List (List Char)) : Except DocumentError (Nat × Nat) :=
  match markerIndex? lines .vertex with
  | none => .error (.missingMarker .vertex)
  | some vertexAt =>
    match markerIndex? lines .fragment with
    | none => .error (.missingMarker .fragment)
    | some fragmentAt =>
      if fragmentAt < vertexAt then .error .markersOutOfOrder
      else
        match (lines.take vertexAt).findIdx? (fun line => !(Text.trim line).isEmpty) with
        | some i => .error (.textBeforeVertex (i + 1))
        | none => .ok (vertexAt, fragmentAt)

/-- The lines of a section as one text. No line and a single empty line both give the empty text. -/
def joinLines (lines : List (List Char)) : String :=
  match List.intercalate ['\n'] lines with
  | [] => ""
  | text => String.ofList (text ++ ['\n'])

/-- The sources in a text that holds both stages. -/
def split (text : String) : Except DocumentError Document := do
  let lines := Text.lines text.toList
  let (vertexAt, fragmentAt) ← locate lines
  return {
    vertex := joinLines ((lines.take fragmentAt).drop (vertexAt + 1))
    fragment := joinLines (lines.drop (fragmentAt + 1)) }

/-- The number of lines of a text before the source of a stage. -/
def lineOffset (text : String) (stage : Stage) : Nat :=
  match markerIndex? (Text.lines text.toList) stage with
  | some i => i + 1
  | none => 0

end Document

/-- Both stages of a program as one document. -/
def Program.document (program : Program) (separator : String) : Document where
  vertex := program.render .vertex separator
  fragment := program.render .fragment separator

end GlslShrink
