/-
# Lotbook.Binary64.Basic -- the magnitudes of double precision

A finite magnitude of IEEE 754 double precision is a mantissa of at most 53 bits times a power of
two that is at least 2^-1074. Everything here is exact arithmetic on natural numbers: a quotient is
rounded to the nearest magnitude, ties to the even mantissa, and is refused where it overflows.
-/
import Lotbook.Decimal.Rounding
import Lotbook.Power

namespace Lotbook

/-- A finite magnitude `mantissa * 2 ^ exponent`. -/
structure Binary64 where
  mantissa : Nat
  exponent : Int
  deriving DecidableEq, Repr

namespace Binary64

/-- The bits of a mantissa. -/
def precision : Nat := 53

/-- The smallest exponent of two. -/
def minExponent : Int := -1074

/-- The largest exponent of two. -/
def maxExponent : Int := 971

/-- Zero. -/
def zero : Binary64 := ⟨0, minExponent⟩

/-- A natural number times a power of two, as numerator and denominator. -/
def scaled (n : Nat) (exponent : Int) : Nat × Nat :=
  if 0 ≤ exponent then (n * twoTo exponent.toNat, 1) else (n, twoTo (-exponent).toNat)

/-- The exact value as numerator and denominator. -/
def toQuotient (x : Binary64) : Nat × Nat := scaled x.mantissa x.exponent

/-- The largest power of two, as its exponent, that is at most `num / den`; for positive numbers. -/
def floorLog2 (num den : Nat) : Int :=
  let guess := (num.log2 : Int) - den.log2
  let (up, down) := scaled 1 guess
  if den * up ≤ num * down then guess else guess - 1

/-- The magnitude with a mantissa that rounding may have carried beyond its bits. -/
def carried? (mantissa : Nat) (exponent : Int) : Option Binary64 :=
  let (mantissa, exponent) :=
    if mantissa = twoTo precision then (twoTo (precision - 1), exponent + 1) else (mantissa, exponent)
  if exponent ≤ maxExponent then some ⟨mantissa, exponent⟩ else none

/-- The magnitude nearest to `num / den`, ties to the even mantissa; none if it overflows. -/
def nearest? (num den : Nat) : Option Binary64 :=
  if num = 0 then some zero
  else
    -- what the last bit of the mantissa counts for; tiny magnitudes have fewer bits
    let exponent := max (floorLog2 num den - (precision - 1)) minExponent
    let (up, down) := scaled 1 exponent
    carried? (Rounding.halfEven.quotient (num * down) (den * up)).natAbs exponent

/-- The rounded product of two magnitudes; none if it overflows. -/
def mul? (x y : Binary64) : Option Binary64 :=
  let (a, b) := x.toQuotient
  let (c, d) := y.toQuotient
  nearest? (a * c) (b * d)

/-- The rounded quotient of two magnitudes, the second of which is not zero. -/
def div? (x y : Binary64) : Option Binary64 :=
  let (a, b) := x.toQuotient
  let (c, d) := y.toQuotient
  nearest? (a * d) (b * c)

/-- Whether the magnitude is zero. -/
def isZero (x : Binary64) : Bool := x.mantissa = 0

/-! ## Magnitudes out of digits and a power of ten -/

/-- The largest power of ten that is a finite magnitude. -/
def maxPowerOfTen : Nat := 308

/-- The magnitude nearest to a power of ten. -/
def powerOfTen? (power : Nat) : Option Binary64 := nearest? (tenTo power) 1

/-- Divides by a power of ten in rounded steps of at most 10^308, until nothing is left to divide;
`steps` bounds their number, and three bring every magnitude to zero. -/
def scaleDown? (x : Binary64) (power : Nat) : (steps : Nat) → Option Binary64
  | 0 => some zero
  | steps + 1 =>
      if power ≤ maxPowerOfTen then (powerOfTen? power).bind x.div?
      else if x.isZero then some x
      else
        ((powerOfTen? maxPowerOfTen).bind x.div?).bind fun y =>
          y.scaleDown? (power - maxPowerOfTen) steps

/-- The magnitude of `significand * 10 ^ power`, by one rounded multiplication or by rounded
divisions: accurate to the last few bits, not correctly rounded. None if it overflows. -/
def ofSignificand? (significand : Nat) (power : Int) : Option Binary64 :=
  (nearest? significand 1).bind fun x =>
    if power < 0 then x.scaleDown? (-power).toNat 4
    else if power ≤ maxPowerOfTen then (powerOfTen? power.toNat).bind x.mul?
    else if x.isZero then some x
    else none

end Binary64

end Lotbook
