import GlslShrink.Text.Lines

/-!
The words of the shading language: what a word is made of, which words can never be given to a
symbol, and which words the grammar never reads as a name.
-/

set_option autoImplicit false

namespace GlslShrink.Word

/-- Whether a word can start with this character. -/
def isStart (c : Char) : Bool :=
  c.isAlpha || c == '_'

/-- Whether a word can go on with this character. -/
def isPart (c : Char) : Bool :=
  c.isAlphanum || c == '_'

/-- Keywords, built-in types and words kept for future use. -/
def reservedWords : List String :=
  ["attribute", "const", "uniform", "varying", "buffer", "shared", "coherent", "volatile",
    "restrict", "readonly", "writeonly", "layout", "centroid", "flat", "smooth", "noperspective",
    "patch", "sample", "break", "continue", "do", "for", "while", "switch", "case", "default",
    "if", "else", "subroutine", "in", "out", "inout", "true", "false", "invariant", "precise",
    "discard", "return", "lowp", "mediump", "highp", "precision", "struct",
    "void", "bool", "int", "uint", "float", "double", "vec2", "vec3", "vec4", "dvec2", "dvec3",
    "dvec4", "bvec2", "bvec3", "bvec4", "ivec2", "ivec3", "ivec4", "uvec2", "uvec3", "uvec4",
    "mat2", "mat3", "mat4", "mat2x2", "mat2x3", "mat2x4", "mat3x2", "mat3x3", "mat3x4",
    "mat4x2", "mat4x3", "mat4x4", "sampler2D", "sampler3D", "samplerCube", "sampler2DShadow",
    "samplerCubeShadow", "sampler2DArray", "sampler2DArrayShadow", "isampler2D", "isampler3D",
    "isamplerCube", "isampler2DArray", "usampler2D", "usampler3D", "usamplerCube",
    "usampler2DArray",
    "asm", "class", "union", "enum", "typedef", "template", "this", "packed", "goto", "inline",
    "noinline", "public", "static", "extern", "external", "interface", "long", "short", "half",
    "fixed", "unsigned", "superp", "input", "output", "hvec2", "hvec3", "hvec4", "fvec2",
    "fvec3", "fvec4", "sampler1D", "sampler1DShadow", "sampler2DRect", "sampler2DRectShadow",
    "sampler3DRect", "sizeof", "cast", "namespace", "using", "resource", "filter", "active"]

/-- Words that the grammar never reads as the name of a type or of a symbol. -/
def structuralKeywords : List String :=
  ["attribute", "const", "uniform", "varying", "buffer", "shared", "layout", "centroid", "flat",
    "smooth", "noperspective", "break", "continue", "do", "for", "while", "switch", "case",
    "default", "if", "else", "in", "out", "inout", "true", "false", "invariant", "precise",
    "discard", "return", "lowp", "mediump", "highp", "precision", "struct"]

/-- Storage, interpolation and invariance qualifiers of declarations. -/
def storageQualifiers : List String :=
  ["const", "uniform", "attribute", "varying", "in", "out", "centroid", "flat", "smooth",
    "invariant"]

def parameterQualifiers : List String :=
  ["const", "in", "out", "inout"]

def precisionQualifiers : List String :=
  ["lowp", "mediump", "highp"]

/-- Qualifiers that make a global visible to the host program or to the other stage. -/
def interfaceQualifiers : List String :=
  ["uniform", "attribute", "varying", "in", "out"]

/-- Whether two underscores stand side by side in a text. -/
def hasDoubleUnderscore : List Char → Bool
  | '_' :: '_' :: _ => true
  | _ :: rest => hasDoubleUnderscore rest
  | [] => false

/-- Whether a word can never be given to a symbol. -/
def isReserved (word : String) : Bool :=
  Text.startsWith ['g', 'l', '_'] word.toList || hasDoubleUnderscore word.toList ||
    reservedWords.contains word

/-- Whether a word can not stand where the grammar expects a name. -/
def isStructural (word : String) : Bool :=
  structuralKeywords.contains word

end GlslShrink.Word
