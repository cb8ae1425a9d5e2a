/-
# Lotbook.Json.Number -- number literals of JSON and what they stand for

A literal without a fraction and without an exponent that fits 64 bits, signed if it has a minus
sign, is an integer; every other literal is a double, read digit by digit: whole digits are taken
while they fit 64 bits and each later one raises the exponent, then fraction digits are taken while
they fit and later ones are dropped. A double too large for double precision is an error.

A decimal is written as the shortest digits of its nearest double and read back from an integer, or
from the shortest plain digits of a double.
-/
import Lotbook.Binary64.Shortest
import Lotbook.Decimal.Numeral

namespace Lotbook.Json

/-- A number literal in its parts. -/
structure NumberLiteral where
  negative : Bool
  whole : List Nat
  fraction : List Nat
  exponent : Option Int
  deriving DecidableEq

namespace NumberLiteral

/-- The largest whole number that is read as an integer: 64 bits. -/
def maxUnsigned : Nat := twoTo 64 - 1

/-- The digits in front that continue a number without passing `maxUnsigned`, and those left over. -/
def takeDigits (n : Nat) : List Nat → Nat × List Nat
  | [] => (n, [])
  | d :: ds => if 10 * n + d ≤ maxUnsigned then takeDigits (10 * n + d) ds else (n, d :: ds)

/-- The integer that the literal stands for; none if it stands for a double. -/
def integer? (lit : NumberLiteral) : Option Int :=
  match lit.fraction, lit.exponent, takeDigits 0 lit.whole with
  | [], none, (n, []) =>
      if !lit.negative then some n
      else if 0 < n ∧ n ≤ twoTo 63 then some (-n)
      else none
  | _, _, _ => none

/-- The magnitude of the double that the literal stands for; none if it is too large. -/
def magnitude? (lit : NumberLiteral) : Option Binary64 :=
  let (n, wholeLeft) := takeDigits 0 lit.whole
  let (n, fractionLeft) := takeDigits n lit.fraction
  -- whole digits left over move the point to the right, fraction digits taken to the left
  let taken := lit.fraction.length - fractionLeft.length
  Binary64.ofSignificand? n (wholeLeft.length - taken + lit.exponent.getD 0)

/-- Whether the literal stands for an integer or a double at all. -/
def inRange (lit : NumberLiteral) : Bool := lit.integer?.isSome || lit.magnitude?.isSome

/-- The decimal that the literal stands for. -/
def decimal? (lit : NumberLiteral) : Option Decimal :=
  match lit.integer? with
  | some n => (Numeral.of? (decide (n < 0)) n.natAbs 0).map Numeral.value
  | none =>
      lit.magnitude?.bind fun x =>
        let digits := (x.shortest .up).plain false
        (Numeral.ofPlainChars? (if lit.negative then '-' :: digits else digits)).map Numeral.value

end NumberLiteral

/-! ## Writing decimals -/

/-- Leading powers of ten from here on are written with an exponent. -/
def exponentialFrom : Int := 16

/-- Leading powers of ten below this one are written with an exponent. -/
def plainFrom : Int := -5

/-- A decimal as the shortest digits of its nearest double. -/
def decimalChars (d : Decimal) : List Char :=
  match Binary64.nearest? d.units.natAbs Decimal.unit with
  | none => ['0', '.', '0']
  | some x =>
      let s := x.shortest .toEven
      let unsigned :=
        if plainFrom ≤ s.leading ∧ s.leading < exponentialFrom then s.plain true else s.exponential
      if d.units < 0 then '-' :: unsigned else unsigned

end Lotbook.Json
