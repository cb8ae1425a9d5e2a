/-
# Lotbook.Text.Blank -- the white space of Unicode

The property `White_Space` of the Unicode character database, as ranges of code points, and the
removal of white space in front of a text.
-/

namespace Lotbook.Text

/-- The ranges of code points that are white space, both ends included. -/
def blankRanges : List (Nat × Nat) :=
  [(0x09, 0x0D), (0x20, 0x20), (0x85, 0x85), (0xA0, 0xA0), (0x1680, 0x1680), (0x2000, 0x200A),
    (0x2028, 0x2029), (0x202F, 0x202F), (0x205F, 0x205F), (0x3000, 0x3000)]

/-- Whether a character is white space. -/
def isBlank (c : Char) : Bool := blankRanges.any fun r => r.1 ≤ c.toNat && c.toNat ≤ r.2

/-- A text without the white space in front of it. -/
def trimFront (cs : List Char) : List Char := cs.dropWhile isBlank

end Lotbook.Text
