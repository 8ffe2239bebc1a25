import GlslShrink.Naming.NameSet
import GlslShrink.Naming.ShortName
import GlslShrink.Tree.Word

/-!
Handing out short names. A generator goes through the numbered names in ascending order and skips
reserved words and names that are in use. A symbol that has a short name keeps it.
-/

set_option autoImplicit false

namespace GlslShrink

structure Generator where
  nextIndex : Nat := 0
  used : NameSet := []
  shortened : NameMap String := []
  deriving DecidableEq, Repr

namespace Generator

def startingAt (index : Nat) : Generator :=
  { nextIndex := index }

/-- Keeps a name from being handed out. -/
def reserve (generator : Generator) (name : String) : Generator :=
  { generator with used := generator.used.insert name }

def reserveAll (generator : Generator) (names : List String) : Generator :=
  names.foldl reserve generator

/-- Gives a symbol a name chosen elsewhere. -/
def assign (generator : Generator) (symbol short : String) : Generator :=
  { generator with
    used := generator.used.insert short
    shortened := generator.shortened.insert symbol short }

/-- The short name of a symbol, or the symbol itself if it has none. -/
def shortOf (generator : Generator) (symbol : String) : String :=
  (generator.shortened.find? symbol).getD symbol

def isFree (used : NameSet) (name : String) : Bool :=
  !Word.isReserved name && !used.contains name

/-- The first index from `index` on whose name is free, looking at most `bound` names ahead. -/
def firstFree (used : NameSet) (nameFor : Nat → String) : (bound index : Nat) → Nat
  | 0, index => index
  | bound + 1, index =>
    if isFree used (nameFor index) then index else firstFree used nameFor bound (index + 1)

/-- The short name of a symbol and the generator afterwards. A new name is the first free one of
the numbering `nameFor`; since different numbers have different names, no more of them can be taken
than there are reserved words and used names. -/
def shortenBy (nameFor : Nat → String) (generator : Generator) (symbol : String) :
    String × Generator :=
  match generator.shortened.find? symbol with
  | some short => (short, generator)
  | none =>
    let bound := generator.used.length + Word.reservedWords.length + 1
    let index := firstFree generator.used nameFor bound generator.nextIndex
    let short := nameFor index
    (short, { generator.assign symbol short with nextIndex := index + 1 })

def shortenSymbol : Generator → String → String × Generator :=
  shortenBy ShortName.plain

def shortenDefinition : Generator → String → String × Generator :=
  shortenBy ShortName.definition

end Generator

end GlslShrink
