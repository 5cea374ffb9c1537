/-!
# Blank characters

Two classes are in use. Layout between the words of a signature is space, tab, carriage return and
line feed only. Text that is quoted in a message is trimmed of every character with the Unicode
property White_Space.
-/

namespace MixinTypes.Text

/-- The blanks that may stand between words. -/
def isLayout (c : Char) : Bool := c = ' ' || c = '\t' || c = '\r' || c = '\n'

/-- The code points with the property White_Space, as inclusive ranges. -/
def whiteSpaceRanges : List (Nat × Nat) :=
  [(0x09, 0x0D), (0x20, 0x20), (0x85, 0x85), (0xA0, 0xA0), (0x1680, 0x1680), (0x2000, 0x200A),
    (0x2028, 0x2029), (0x202F, 0x202F), (0x205F, 0x205F), (0x3000, 0x3000)]

def isWhiteSpace (c : Char) : Bool :=
  whiteSpaceRanges.any fun r => r.1 ≤ c.toNat && c.toNat ≤ r.2

/-- The text without white space at either end. -/
def trim (cs : List Char) : List Char :=
  ((cs.dropWhile isWhiteSpace).reverse.dropWhile isWhiteSpace).reverse

end MixinTypes.Text
