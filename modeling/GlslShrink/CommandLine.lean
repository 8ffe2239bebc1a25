import GlslShrink.Document
import GlslShrink.Pipeline.Compile

/-!
The command line: two files, or one document with both stages, and switches for the steps. Reading
files is left to the caller; everything else is worked out here.
-/

set_option autoImplicit false

namespace GlslShrink.CommandLine

/-- Where the sources come from. -/
inductive Input where
  | pair (vertex fragment : String)
  | combined (path : String)
  deriving DecidableEq, Repr

/-- What the arguments ask for. -/
inductive Request where
  | compile (input : Input) (options : Options)
  | version
  | help
  deriving DecidableEq, Repr

/-- Why the arguments make no sense. -/
inductive UsageError where
  | unknownOption (text : String)
  | repeatedOption (text : String)
  | needlessValue (text : String)
  | missingValue (text : String)
  | emptyPath
  | surplusArgument (text : String)
  | missingArgument
  | conflict
  deriving DecidableEq, Repr

def UsageError.message : UsageError → String
  | unknownOption text => "unexpected argument '" ++ text ++ "' found"
  | repeatedOption text => "the argument '" ++ text ++ "' cannot be used multiple times"
  | needlessValue text => "unexpected value for '" ++ text ++ "' found; no more were expected"
  | missingValue text => "a value is required for '" ++ text ++ "' but none was supplied"
  | emptyPath => "a path must not be empty"
  | surplusArgument text => "unexpected argument '" ++ text ++ "' found"
  | missingArgument => "the required arguments were not provided: <VERTEX> <FRAGMENT>"
  | conflict => "the argument '--combined' cannot be used with [VERTEX] or [FRAGMENT]"

/-- The arguments read so far. -/
structure Draft where
  paths : List String := []
  combined : Option String := none
  /-- The switches that have been given. -/
  switches : List String := []

/-- The switches that may be given once. -/
def switchNames : List String :=
  ["aggressive", "keep-dead-code", "keep-braces", "no-merge", "no-minify", "pretty"]

namespace Draft

def addPath (draft : Draft) (path : String) : Except UsageError Draft :=
  if path = "" then .error .emptyPath
  else if draft.paths.length < 2 then .ok { draft with paths := draft.paths ++ [path] }
  else .error (.surplusArgument path)

def setCombined (draft : Draft) (path : String) : Except UsageError Draft :=
  if path = "" then .error .emptyPath
  else if draft.combined.isSome then .error (.repeatedOption "--combined")
  else .ok { draft with combined := some path }

def addSwitch (draft : Draft) (name : String) : Except UsageError Draft :=
  if !switchNames.contains name then .error (.unknownOption ("--" ++ name))
  else if draft.switches.contains name then .error (.repeatedOption ("--" ++ name))
  else .ok { draft with switches := name :: draft.switches }

def options (draft : Draft) : Options where
  aggressive := draft.switches.contains "aggressive"
  removeDeadFunctions := !draft.switches.contains "keep-dead-code"
  mergeDeclarations := !draft.switches.contains "no-merge"
  reduceBraces := !draft.switches.contains "keep-braces"
  minify := !draft.switches.contains "no-minify"
  lineSeparator := if draft.switches.contains "pretty" then "\n" else ""

/-- What complete arguments ask for. -/
def request (draft : Draft) : Except UsageError Request :=
  match draft.combined, draft.paths with
  | some path, [] => .ok (.compile (.combined path) draft.options)
  | some _, _ => .error .conflict
  | none, [vertex, fragment] => .ok (.compile (.pair vertex fragment) draft.options)
  | none, _ => .error .missingArgument

end Draft

/-- A long option: its name, and the value after an equals sign. -/
def longOption (text : List Char) : String × Option String :=
  let name := String.ofList (text.takeWhile (· != '='))
  match text.dropWhile (· != '=') with
  | [] => (name, none)
  | _ :: value => (name, some (String.ofList value))

/-- Whether an argument can not be the value of the option before it. -/
def looksLikeOption (argument : String) : Bool :=
  match argument.toList with
  | '-' :: _ :: _ => true
  | _ => false

/-- What follows from a cluster of single-letter options: nothing but more output, or a request that
ends the reading. -/
def shortOptions : List Char → Except UsageError (Option Request)
  | [] => .ok none
  | 'v' :: rest => shortOptions rest
  | 'V' :: _ => .ok (some .version)
  | 'h' :: _ => .ok (some .help)
  | c :: _ => .error (.unknownOption (String.ofList ['-', c]))

/-- Reads arguments of which none is an option any more. -/
def readPaths (draft : Draft) (arguments : List String) : Except UsageError Request := do
  let draft ← arguments.foldlM Draft.addPath draft
  draft.request

/-- Reads the arguments after those in `draft`. -/
def readArguments (draft : Draft) : List String → Except UsageError Request
  | [] => draft.request
  | argument :: rest =>
    match argument.toList with
    | ['-', '-'] => readPaths draft rest
    | '-' :: '-' :: text =>
      match longOption text with
      | ("combined", some path) => do
        let draft ← draft.setCombined path
        readArguments draft rest
      | ("combined", none) =>
        match rest with
        | [] => .error (.missingValue "--combined")
        | path :: rest =>
          if looksLikeOption path then .error (.missingValue "--combined")
          else do
            let draft ← draft.setCombined path
            readArguments draft rest
      | ("version", none) => .ok .version
      | ("help", none) => .ok .help
      | ("verbose", none) => readArguments draft rest
      | (name, none) => do
        let draft ← draft.addSwitch name
        readArguments draft rest
      | (name, some _) => .error (.needlessValue ("--" ++ name))
    | '-' :: c :: text => do
      match ← shortOptions (c :: text) with
      | some request => return request
      | none => readArguments draft rest
    | _ => do
      let draft ← draft.addPath argument
      readArguments draft rest

def Request.ofArguments (arguments : List String) : Except UsageError Request :=
  readArguments {} arguments

/-- What the program leaves behind: its exit status and what it wrote. -/
structure Report where
  status : Nat
  out : String := ""
  err : String := ""
  deriving DecidableEq, Repr

/-- Why a file can not be used. -/
inductive FileProblem where
  | notText
  /-- The operating system's reason and its number for it. -/
  | system (reason : String) (code : Nat)
  deriving DecidableEq, Repr

namespace FileProblem

def missing : FileProblem :=
  system "No such file or directory" 2

def message : FileProblem → String
  | notText => "stream did not contain valid UTF-8"
  | system reason code => reason ++ " (os error " ++ toString code ++ ")"

end FileProblem

/-- The text of a file's bytes. -/
def textOf (bytes : ByteArray) : Except FileProblem String :=
  match String.fromUTF8? bytes with
  | some text => .ok text
  | none => .error .notText

/-- The source of a stage, where it is from, and how many lines of that file come before it. -/
structure StageSource where
  path : String
  text : String
  lineOffset : Nat := 0

/-- The report of a failure that has no place in a source. -/
def failure (message : String) : Report where
  status := 1
  err := "error: " ++ message ++ "\n"

def unreadableFile (path : String) (problem : FileProblem) : Report :=
  failure ("failed to read " ++ path ++ ": " ++ problem.message)

/-- The message for a source that can not be read, with its place in the file. -/
def diagnostic (source : StageSource) (error : ReadError) : String :=
  let (line, column) := error.lineColumn source.text
  source.path ++ ":" ++ toString (line + source.lineOffset) ++ ":" ++ toString column ++ ": " ++
    error.complaint.message

/-- Compiles sources and writes the result as a document. -/
def compileSources (vertex fragment : StageSource) (options : Options) : Report :=
  match compile vertex.text fragment.text options with
  | .ok (program, _) => { status := 0, out := (program.document options.lineSeparator).toText }
  | .error (.unreadable .vertex error) => { status := 1, err := diagnostic vertex error ++ "\n" }
  | .error (.unreadable .fragment error) => { status := 1, err := diagnostic fragment error ++ "\n" }
  | .error error => failure error.message

/-- Compiles the two stages of a document. -/
def compileDocument (path text : String) (options : Options) : Report :=
  match Document.split text with
  | .error error => failure (path ++ ": not a shader document: " ++ error.message)
  | .ok document =>
    compileSources
      { path := path, text := document.vertex, lineOffset := Document.lineOffset text .vertex }
      { path := path, text := document.fragment, lineOffset := Document.lineOffset text .fragment }
      options

/-- Carries out a compilation. Files are read in order, and only as long as nothing fails. -/
def compileInput {m : Type → Type} [Monad m] (readFile : String → m (Except FileProblem String))
    (input : Input) (options : Options) : m Report := do
  match input with
  | .combined path =>
    match ← readFile path with
    | .error problem => return unreadableFile path problem
    | .ok text => return compileDocument path text options
  | .pair vertexPath fragmentPath =>
    match ← readFile vertexPath with
    | .error problem => return unreadableFile vertexPath problem
    | .ok vertex =>
      match ← readFile fragmentPath with
      | .error problem => return unreadableFile fragmentPath problem
      | .ok fragment =>
        return compileSources { path := vertexPath, text := vertex }
          { path := fragmentPath, text := fragment } options

def usage : String :=
  "Usage: smc [OPTIONS] [VERTEX] [FRAGMENT]"

def helpText : String :=
  "Minify a GLSL vertex/fragment shader pair\n\n" ++ usage ++ "\n\n" ++
    "Options:\n" ++
    "      --combined <COMBINED>  Read both stages from one document\n" ++
    "      --aggressive           Also rename uniforms, attributes, varyings and global in/out\n" ++
    "      --keep-dead-code       Keep functions unreachable from main\n" ++
    "      --keep-braces          Keep redundant braces\n" ++
    "      --no-merge             Keep adjacent declarations separate\n" ++
    "      --no-minify            Keep identifier names\n" ++
    "      --pretty               Put each top-level declaration on its own line\n" ++
    "  -v, --verbose...           Log more\n" ++
    "  -h, --help                 Print help\n" ++
    "  -V, --version              Print version\n"

/-- Does what the arguments ask for. -/
def run {m : Type → Type} [Monad m] (readFile : String → m (Except FileProblem String))
    (arguments : List String) : m Report := do
  match Request.ofArguments arguments with
  | .error error =>
    return { status := 2, err := "error: " ++ error.message ++ "\n\n" ++ usage ++ "\n" }
  | .ok .version => return { status := 0, out := "smc 0.1.0\n" }
  | .ok .help => return { status := 0, out := helpText }
  | .ok (.compile input options) => compileInput readFile input options

end GlslShrink.CommandLine
