/-!
The syntactic categories of a shader tree and the shape each of them asks of its children. A
category fixes an ordered list of places: a child that must be there, a child that may be there,
or a list of children. Traversals rely on these layouts to descend below nodes they do not treat
themselves.
-/

set_option autoImplicit false

namespace GlslShrink

/-- What one place of a node may hold. -/
inductive SlotKind where
  | required
  | optional
  | list
  deriving DecidableEq, Repr

/-- The syntactic category of a node. -/
inductive Tag where
  | shader
  | directive
  | precision
  | declaration
  | typeName
  | structDefinition
  | declarator
  | functionPrototype
  | functionDefinition
  | parameter
  | scope
  | expressionStatement
  | ifStatement
  | forLoop
  | whileLoop
  | doWhileLoop
  | returnStatement
  | jump
  | assignment
  | binary
  | unary
  | postfixUpdate
  | ternary
  | call
  | fieldSelection
  | index
  | identifier
  | intLiteral
  | floatLiteral
  | boolLiteral
  deriving DecidableEq, Repr

namespace Tag

def all : List Tag :=
  [shader, directive, precision, declaration, typeName, structDefinition, declarator,
    functionPrototype, functionDefinition, parameter, scope, expressionStatement, ifStatement,
    forLoop, whileLoop, doWhileLoop, returnStatement, jump, assignment, binary, unary,
    postfixUpdate, ternary, call, fieldSelection, index, identifier, intLiteral, floatLiteral,
    boolLiteral]

/-- The places of a node of this category, in order. -/
def layout : Tag → List SlotKind
  | shader => [.list]
  | directive => []
  | precision => [.required]
  | declaration => [.required, .list]
  | typeName => []
  | structDefinition => [.list]
  | declarator => [.optional, .optional]
  | functionPrototype => [.required, .list]
  | functionDefinition => [.required, .list, .required]
  | parameter => [.required, .optional]
  | scope => [.list]
  | expressionStatement => [.optional]
  | ifStatement => [.required, .required, .optional]
  | forLoop => [.optional, .optional, .optional, .required]
  | whileLoop => [.required, .required]
  | doWhileLoop => [.required, .required]
  | returnStatement => [.optional]
  | jump => []
  | assignment => [.required, .required]
  | binary => [.required, .required]
  | unary => [.required]
  | postfixUpdate => [.required]
  | ternary => [.required, .required, .required]
  | call => [.list]
  | fieldSelection => [.required]
  | index => [.required, .required]
  | identifier | intLiteral | floatLiteral | boolLiteral => []

def name : Tag → String
  | shader => "translation_unit"
  | directive => "preprocessor"
  | precision => "precision"
  | declaration => "declaration"
  | typeName => "type_name"
  | structDefinition => "struct_definition"
  | declarator => "declarator"
  | functionPrototype => "function_prototype"
  | functionDefinition => "function_declaration"
  | parameter => "parameter"
  | scope => "scope"
  | expressionStatement => "expression_statement"
  | ifStatement => "if"
  | forLoop => "for"
  | whileLoop => "while"
  | doWhileLoop => "do_while"
  | returnStatement => "return"
  | jump => "jump"
  | assignment => "assignment"
  | binary => "binary"
  | unary => "unary"
  | postfixUpdate => "postfix"
  | ternary => "ternary"
  | call => "function_call"
  | fieldSelection => "field_selection"
  | index => "index"
  | identifier => "identifier"
  | intLiteral => "int"
  | floatLiteral => "float"
  | boolLiteral => "bool"

def ofName? (text : String) : Option Tag :=
  all.find? (fun tag => tag.name == text)

/-- Whether nodes of this category can stand in a statement list. -/
def isStatement : Tag → Bool
  | directive | declaration | scope | expressionStatement | ifStatement | forLoop | whileLoop
  | doWhileLoop | returnStatement | jump => true
  | _ => false

def isExpression : Tag → Bool
  | assignment | binary | unary | postfixUpdate | ternary | call | fieldSelection | index
  | identifier | intLiteral | floatLiteral | boolLiteral => true
  | _ => false

theorem isExpression_eq_false_of_isStatement {tag : Tag} (h : tag.isStatement = true) :
    tag.isExpression = false := by
  cases tag <;> simp_all [isStatement, isExpression]

end Tag

end GlslShrink
