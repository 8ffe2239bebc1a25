import GlslShrink.Reading.Declaration

/-!
Statements, function definitions and the declarations at the top of a shader. The readers below
take as `inner` the reader of nested statements; `statement` closes the circle.
-/

set_option autoImplicit false

namespace GlslShrink.Statement

open Reader Token Expression

/-- A block. A statement that gets stuck before the closing brace makes the block stuck there. -/
def block (inner : Reader Node) : Reader Node := do
  punct '{'
  let statements ← manyUntil inner (punct '}')
  return .scope statements

def condition : Reader Node :=
  parenthesized expression

def ifStatement (inner : Reader Node) : Reader Node := do
  let _ ← keyword "if"
  let test ← condition
  let thenBranch ← inner
  (keyword "else").branch
    (fun _ => do
      let elseBranch ← inner
      return .ifStatement test thenBranch (some elseBranch))
    (pure (.ifStatement test thenBranch none))

def forLoop (inner : Reader Node) : Reader Node := do
  let _ ← keyword "for"
  punct '('
  let init ← optional (Declaration.body Declaration.declaration <|> expression .withComma)
  punct ';'
  let test ← optional (expression .withComma)
  punct ';'
  let step ← optional (expression .withComma)
  punct ')'
  let body ← inner
  return .forLoop init test step body

def whileLoop (inner : Reader Node) : Reader Node := do
  let _ ← keyword "while"
  let test ← condition
  let body ← inner
  return .whileLoop test body

def doWhileLoop (inner : Reader Node) : Reader Node := do
  let _ ← keyword "do"
  let body ← inner
  let _ ← keyword "while"
  let test ← condition
  punct ';'
  return .doWhileLoop body test

def returnStatement : Reader Node := do
  let _ ← keyword "return"
  let value ← optional (expression .withComma)
  punct ';'
  return .returnStatement value

def jump : Reader Node := do
  let word ← wordIn ["break", "continue", "discard"]
  punct ';'
  return .jump word

def directive : Reader Node := do
  return .directive (← Token.directive)

def emptyStatement : Reader Node := do
  punct ';'
  return .expressionStatement none

def expressionStatement : Reader Node := do
  let value ← expression .withComma
  punct ';'
  return .expressionStatement (some value)

def statement : Reader Node :=
  fix (fun again _ =>
    let inner := again ()
    block inner <|> ifStatement inner <|> forLoop inner <|> whileLoop inner <|>
      doWhileLoop inner <|> returnStatement <|> jump <|> directive <|> emptyStatement <|>
      Declaration.declaration <|> expressionStatement) ()

/-- The prototype or the definition of a function. -/
def function : Reader Node := do
  let qualifiers ← many Declaration.precisionQualifier
  let type ← Declaration.typeSpecifier Declaration.declaration
  let name ← identifier
  let parameters ← Declaration.parameterList
  (punct ';').branch
    (fun _ => pure (.functionPrototype qualifiers type name parameters))
    (do
      let body ← block statement
      return .functionDefinition qualifiers type name parameters body)

/-- What can stand at the top of a shader. -/
def topLevel : Reader Node :=
  directive <|> Declaration.precisionStatement <|> function <|> Declaration.declaration

end GlslShrink.Statement
