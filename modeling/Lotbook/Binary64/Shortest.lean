/-
# Lotbook.Binary64.Shortest -- the fewest decimal digits that read back

Of all decimals that lie closer to a magnitude than to any other, those with the fewest digits are
found on decimal grids of one, two, up to seventeen digits: the first grid with a point in the
rounding interval wins, and of two points the nearer. Which of two equally near points is taken is a
matter of use.
-/
import Lotbook.Binary64.Basic
import Lotbook.Text.Digits

namespace Lotbook.Binary64

/-- Which of two equally near decimals of the same length is taken. -/
inductive Tie where
  | toEven
  | up
  deriving DecidableEq

/-- `significand * 10 ^ power`. -/
structure Scientific where
  significand : Nat
  power : Int
  deriving DecidableEq, Repr

namespace Scientific

/-- The same number without zeros at the end of its significand. -/
def trim (significand : Nat) (power : Int) : (fuel : Nat) → Scientific
  | 0 => ⟨significand, power⟩
  | fuel + 1 =>
      if significand % 10 = 0 then trim (significand / 10) (power + 1) fuel else ⟨significand, power⟩

/-- The power of ten of the leading digit. -/
def leading (s : Scientific) : Int := s.power + (Text.digits s.significand).length - 1

/-- The number in digits with no exponent; at least one place if `point` is set. -/
def plain (s : Scientific) (point : Bool) : List Char :=
  if 0 ≤ s.power then
    Text.digits (s.significand * tenTo s.power.toNat) ++ (if point then ['.', '0'] else [])
  else
    let places := (-s.power).toNat
    let padded := Text.paddedDigits (places + 1) s.significand
    padded.take (padded.length - places) ++ '.' :: padded.drop (padded.length - places)

/-- The number with one digit before the point and an exponent with its sign. -/
def exponential (s : Scientific) : List Char :=
  let digits := Text.digits s.significand
  let fraction := if digits.length = 1 then [] else '.' :: digits.drop 1
  let exponent := (if s.leading < 0 then '-' else '+') :: Text.digits s.leading.natAbs
  digits.take 1 ++ fraction ++ 'e' :: exponent

end Scientific

/-- The interval of numbers that round to a magnitude, and the magnitude itself, all as numerators
over one denominator. The ends belong to it if the mantissa is even. -/
structure Interval where
  low : Nat
  value : Nat
  high : Nat
  den : Nat
  closed : Bool

/-- The rounding interval of a positive magnitude: half a step to either side, and a quarter of a
step below where the steps get finer. -/
def interval (x : Binary64) : Interval :=
  let fine := x.mantissa = twoTo (precision - 1) ∧ minExponent < x.exponent
  -- all in quarters of a step
  let (up, den) := scaled 1 (x.exponent - 2)
  { low := (4 * x.mantissa - (if fine then 1 else 2)) * up
    value := 4 * x.mantissa * up
    high := (4 * x.mantissa + 2) * up
    den
    closed := x.mantissa % 2 = 0 }

namespace Interval

/-- The largest power of ten, as its exponent, that is at most the value. -/
def floorLog10 (i : Interval) : Int :=
  if i.den ≤ i.value then (Text.digits (i.value / i.den)).length - 1
  else -(Text.digits ((i.den + i.value - 1) / i.value - 1)).length

/-- Whether `n` steps of `num / den` lie in the interval. -/
def holds (i : Interval) (n num den : Nat) : Bool :=
  let point := n * num * i.den
  if i.closed then i.low * den ≤ point && point ≤ i.high * den
  else i.low * den < point && point < i.high * den

/-- The nearer of the value's two neighbours on the grid of numbers with so many digits, if either
lies in the interval. -/
def onGrid? (i : Interval) (tie : Tie) (digits : Nat) : Option Scientific :=
  let power := i.floorLog10 - (digits - 1)
  let (num, den) := if 0 ≤ power then (tenTo power.toNat, 1) else (1, tenTo (-power).toNat)
  let below := i.value * den / (i.den * num)
  let rest := i.value * den - below * (i.den * num)
  let nearerIsBelow :=
    if 2 * rest = i.den * num then tie = .toEven && below % 2 = 0 else 2 * rest < i.den * num
  let fits := fun n => i.holds n num den
  let chosen :=
    match fits below, fits (below + 1) with
    | true, true => some (if nearerIsBelow then below else below + 1)
    | true, false => some below
    | false, true => some (below + 1)
    | false, false => none
  chosen.map fun n => ⟨n, power⟩

end Interval

/-- The shortest decimal that reads back as a magnitude. -/
def shortest (x : Binary64) (tie : Tie) : Scientific :=
  if x.isZero then ⟨0, 0⟩
  else
    let i := x.interval
    match (List.range 17).findSome? fun n => i.onGrid? tie (n + 1) with
    | some s => .trim s.significand s.power 17
    | none => ⟨0, 0⟩

end Lotbook.Binary64
