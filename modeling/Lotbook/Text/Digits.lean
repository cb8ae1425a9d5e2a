/-
# Lotbook.Text.Digits -- natural numbers in decimal digits

Writing a natural number in digits, padded on the left to a width, and reading a run of digits back.
Only the ten ASCII digits count.
-/

namespace Lotbook.Text

/-- The value of an ASCII digit. -/
def digit? (c : Char) : Option Nat :=
  if c.isDigit then some (c.toNat - '0'.toNat) else none

/-- The decimal digits of a number, without leading zeros. -/
def digits (n : Nat) : List Char := Nat.toDigits 10 n

/-- Zeros in front up to the given width. -/
def padLeft (width : Nat) (cs : List Char) : List Char :=
  List.replicate (width - cs.length) '0' ++ cs

/-- The digits of a number, with zeros in front up to the given width. -/
def paddedDigits (width n : Nat) : List Char := padLeft width (digits n)

/-- The digits of an integer after a minus sign if it is negative. -/
def signedDigits (n : Int) : List Char :=
  if n < 0 then '-' :: digits n.natAbs else digits n.natAbs

/-- A natural number as text. -/
def written (n : Nat) : String := String.ofList (digits n)

/-- The number that a run of digits continues from `start`, if all of it is digits. -/
def readDigitsFrom? (start : Nat) : List Char → Option Nat
  | [] => some start
  | c :: cs => (digit? c).bind fun d => readDigitsFrom? (10 * start + d) cs

/-- The number written by a run of digits; none if there are no digits or anything else. -/
def readDigits? : List Char → Option Nat
  | [] => none
  | cs => readDigitsFrom? 0 cs

/-- The longest run of digits in front, and what follows it. -/
def spanDigits (cs : List Char) : List Char × List Char :=
  (cs.takeWhile Char.isDigit, cs.dropWhile Char.isDigit)

end Lotbook.Text
