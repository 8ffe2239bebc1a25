import GlslShrink.Tree.Node

/-!
The forms of well-shaped nodes, one for every category: each puts its parts in the places that the
layout of the category names.
-/

set_option autoImplicit false

namespace GlslShrink.Node

def shader (declarations : List Node) : Node :=
  new .shader "" [] [.many declarations]

def directive (text : String) : Node :=
  leaf .directive text

def precision (qualifier : String) (type : Node) : Node :=
  new .precision "" [qualifier] [.one type]

def declaration (qualifiers : List String) (type : Node) (declarators : List Node) : Node :=
  new .declaration "" qualifiers [.one type, .many declarators]

def typeName (name : String) : Node :=
  leaf .typeName name

def structDefinition (name : String) (members : List Node) : Node :=
  new .structDefinition name [] [.many members]

def declarator (name : String) (arraySize initializer : Option Node) : Node :=
  new .declarator name [] [.ofOption arraySize, .ofOption initializer]

def functionPrototype (qualifiers : List String) (type : Node) (name : String)
    (parameters : List Node) : Node :=
  new .functionPrototype name qualifiers [.one type, .many parameters]

def functionDefinition (qualifiers : List String) (type : Node) (name : String)
    (parameters : List Node) (body : Node) : Node :=
  new .functionDefinition name qualifiers [.one type, .many parameters, .one body]

def parameter (qualifiers : List String) (type : Node) (name : String)
    (arraySize : Option Node) : Node :=
  new .parameter name qualifiers [.one type, .ofOption arraySize]

def scope (statements : List Node) : Node :=
  new .scope "" [] [.many statements]

def expressionStatement (expression : Option Node) : Node :=
  new .expressionStatement "" [] [.ofOption expression]

def ifStatement (condition thenBranch : Node) (elseBranch : Option Node) : Node :=
  new .ifStatement "" [] [.one condition, .one thenBranch, .ofOption elseBranch]

def forLoop (init condition step : Option Node) (body : Node) : Node :=
  new .forLoop "" [] [.ofOption init, .ofOption condition, .ofOption step, .one body]

def whileLoop (condition body : Node) : Node :=
  new .whileLoop "" [] [.one condition, .one body]

def doWhileLoop (body condition : Node) : Node :=
  new .doWhileLoop "" [] [.one body, .one condition]

def returnStatement (value : Option Node) : Node :=
  new .returnStatement "" [] [.ofOption value]

def jump (keyword : String) : Node :=
  leaf .jump keyword

def assignment (operator : String) (target value : Node) : Node :=
  new .assignment operator [] [.one target, .one value]

def binary (operator : String) (left right : Node) : Node :=
  new .binary operator [] [.one left, .one right]

def unary (operator : String) (operand : Node) : Node :=
  new .unary operator [] [.one operand]

def postfixUpdate (operator : String) (operand : Node) : Node :=
  new .postfixUpdate operator [] [.one operand]

def ternary (condition ifTrue ifFalse : Node) : Node :=
  new .ternary "" [] [.one condition, .one ifTrue, .one ifFalse]

def call (name : String) (arguments : List Node) : Node :=
  new .call name [] [.many arguments]

def fieldSelection (base : Node) (field : String) : Node :=
  new .fieldSelection field [] [.one base]

def index (base position : Node) : Node :=
  new .index "" [] [.one base, .one position]

def identifier (name : String) : Node :=
  leaf .identifier name

def intLiteral (text : String) : Node :=
  leaf .intLiteral text

def floatLiteral (text : String) : Node :=
  leaf .floatLiteral text

def boolLiteral (value : Bool) : Node :=
  leaf .boolLiteral (if value then "true" else "false")

end GlslShrink.Node
