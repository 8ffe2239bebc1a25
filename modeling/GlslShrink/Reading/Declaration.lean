import GlslShrink.Reading.Expression

/-!
Declarations of variables and structures, and the signatures of functions. The readers below take
as `member` the reader of the declarations inside a structure; `declaration` closes the circle.
-/

set_option autoImplicit false

namespace GlslShrink.Declaration

open Reader Token Expression

/-- One entry of a layout qualifier, without blanks. -/
def layoutEntry : Reader String := do
  let name ← word
  let value ← optional (do punct '='; intLiteral)
  match value with
  | some number => return name ++ "=" ++ number
  | none => return name

/-- A layout qualifier, as one word without blanks. -/
def layoutQualifier : Reader String := do
  let _ ← keyword "layout"
  punct '('
  let entries ← separated1 (punct ',') layoutEntry
  punct ')'
  return "layout(" ++ String.intercalate "," entries ++ ")"

def declarationQualifier : Reader String :=
  layoutQualifier <|> wordIn (Word.storageQualifiers ++ Word.precisionQualifiers)

def parameterQualifier : Reader String :=
  wordIn (Word.parameterQualifiers ++ Word.precisionQualifiers)

def precisionQualifier : Reader String :=
  wordIn Word.precisionQualifiers

def typeName : Reader Node := do
  return .typeName (← identifier)

def structSpecifier (member : Reader Node) : Reader Node := do
  let _ ← keyword "struct"
  let name ← optional identifier
  punct '{'
  let members ← many1 member
  punct '}'
  return .structDefinition (name.getD "") members

def typeSpecifier (member : Reader Node) : Reader Node :=
  structSpecifier member <|> typeName

def arraySize : Reader Node := do
  punct '['
  let size ← conditional expression
  punct ']'
  return size

def declarator : Reader Node := do
  let name ← identifier
  let size ← optional arraySize
  equals.branch
    (fun _ => do
      let initializer ← expression .withoutComma
      return .declarator name size (some initializer))
    (pure (.declarator name size none))

/-- The declared names. A structure may be declared without any. -/
def declarators (type : Node) : Reader (List Node) :=
  if type.tag = .structDefinition then separated (punct ',') declarator
  else separated1 (punct ',') declarator

/-- A declaration without the semicolon at its end. -/
def body (member : Reader Node) : Reader Node := do
  let qualifiers ← many declarationQualifier
  let type ← typeSpecifier member
  let names ← declarators type
  return .declaration qualifiers type names

def declaration : Reader Node :=
  fix (fun again _ => do
    let declared ← body (again ())
    punct ';'
    return declared) ()

def precisionStatement : Reader Node := do
  let _ ← keyword "precision"
  let qualifier ← precisionQualifier
  let type ← typeName
  punct ';'
  return .precision qualifier type

def parameter : Reader Node := do
  let qualifiers ← many parameterQualifier
  let type ← typeSpecifier declaration
  let name ← optional identifier
  let size ← optional arraySize
  return .parameter qualifiers type (name.getD "") size

def parameterList : Reader (List Node) := do
  punct '('
  let parameters ← emptyByVoid <|> separated (punct ',') parameter
  punct ')'
  return parameters

end GlslShrink.Declaration
