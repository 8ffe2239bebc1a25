/-!
The numbering of short names. The first character is a letter and all others are letters or digits,
the least significant first; names of one length come before longer ones.
-/

set_option autoImplicit false

namespace GlslShrink.ShortName

def letters : List Char :=
  ['a', 'b', 'c', 'd', 'e', 'f', 'g', 'h', 'i', 'j', 'k', 'l', 'm', 'n', 'o', 'p', 'q', 'r', 's',
    't', 'u', 'v', 'w', 'x', 'y', 'z', 'A', 'B', 'C', 'D', 'E', 'F', 'G', 'H', 'I', 'J', 'K', 'L',
    'M', 'N', 'O', 'P', 'Q', 'R', 'S', 'T', 'U', 'V', 'W', 'X', 'Y', 'Z']

def digits : List Char :=
  ['0', '1', '2', '3', '4', '5', '6', '7', '8', '9']

/-- The character for a remainder below the size of the alphabet. -/
def pick (alphabet : List Char) (i : Nat) : Char :=
  alphabet.getD i 'a'

/-- The characters after the first one. -/
def tail : Nat → List Char
  | 0 => []
  | n + 1 => pick (letters ++ digits) (n % 62) :: tail (n / 62)
decreasing_by omega

def chars (index : Nat) : List Char :=
  pick letters (index % 52) :: tail (index / 52)

/-- The short name with the given number. -/
def plain (index : Nat) : String :=
  String.ofList (chars index)

/-- The short name for a type definition, told apart by an underscore in front. -/
def definition (index : Nat) : String :=
  String.ofList ('_' :: chars index)

end GlslShrink.ShortName
