/-
# Lotbook.Decimal.Numeral -- decimals as they are written

A numeral is a decimal together with its sign and the places it was written with, so `1.50` and
`1.5` are two numerals of one decimal. In plain notation it is an optional sign and digits with at
most one point, and `_` anywhere after the first digit. Digits beyond what a decimal can hold are
rounded away by the first of them, a five upwards; what follows it counts for nothing, but has to be
digits and `_` all the same. Too many digits before the point are an error. A plain zero has no sign.

In scientific notation a positive exponent has to leave the decimal exact, while a negative one may
cost places: what falls below the smallest unit is rounded away, a half away from zero
(`Numeral.scaleDown?`). A decimal by itself is written with as few places as it needs
(`Decimal.text`).
-/
import Lotbook.Decimal.Basic
import Lotbook.Text.Digits

namespace Lotbook

open Decimal (maxMantissa maxPlaces)

/-- A decimal as written: a sign, a mantissa and the number of places it is written with. -/
structure Numeral where
  negative : Bool
  mantissa : Nat
  places : Nat
  mantissa_fits : mantissa ≤ maxMantissa
  places_le : places ≤ maxPlaces
  deriving DecidableEq

namespace Numeral

/-- The mantissa with its sign. -/
def signed (n : Numeral) : Int := if n.negative then -n.mantissa else n.mantissa

theorem natAbs_signed (n : Numeral) : n.signed.natAbs = n.mantissa := by
  unfold signed
  split <;> omega

/-- The number that is written. -/
def value (n : Numeral) : Decimal :=
  Decimal.ofMantissa n.signed n.places (n.natAbs_signed ▸ n.mantissa_fits)

/-- The numeral with the given parts, if they are within bounds. -/
def of? (negative : Bool) (mantissa places : Nat) : Option Numeral :=
  if h : mantissa ≤ maxMantissa ∧ places ≤ maxPlaces then
    some ⟨negative, mantissa, places, h.1, h.2⟩
  else none

/-- Zero, written without places. -/
def zero : Numeral := ⟨false, 0, 0, Nat.zero_le _, Nat.zero_le _⟩

/-- The numeral with a minus sign, unless it is zero. -/
def withMinus (n : Numeral) : Numeral := { n with negative := n.mantissa != 0 }

/-! ## Writing -/

/-- The digits of a mantissa with a point before its last `places` digits. -/
def pointed (mantissa places : Nat) : List Char :=
  let padded := Text.paddedDigits (places + 1) mantissa
  if places = 0 then padded
  else padded.take (padded.length - places) ++ '.' :: padded.drop (padded.length - places)

/-- The numeral as characters, with the sign and the places it was given. -/
def chars (n : Numeral) : List Char :=
  if n.negative then '-' :: pointed n.mantissa n.places else pointed n.mantissa n.places

/-- The numeral as text, with the sign and the places it was given. -/
def text (n : Numeral) : String := String.ofList n.chars

/-! ## Plain notation -/

/-- The numeral with one more digit written after it, if it still fits. -/
def append? (n : Numeral) (afterPoint : Bool) (d : Nat) : Option Numeral :=
  of? n.negative (10 * n.mantissa + d) (if afterPoint then n.places + 1 else 0)

/-- The numeral after dropping a digit `d` that did not fit: a five or more rounds up, and a mantissa
that overflows by that gives up one place. -/
def dropDigit? (n : Numeral) (d : Nat) : Option Numeral :=
  if d < 5 then some n
  else
    match of? n.negative (n.mantissa + 1) n.places with
    | some up => some up
    -- beyond the largest mantissa: the last digit is given up, rounded
    | none => if n.places = 0 then none else of? n.negative ((n.mantissa + 1 + 4) / 10) (n.places - 1)

/-- Mantissas below this one count as short: their next digit leaves them within 64 bits. -/
def shortMantissa : Nat := 1844674407370954906

/-- Whether a numeral was short until its last digit was written. -/
def wasShort (n : Numeral) : Bool := decide (n.mantissa / 10 < shortMantissa)

/-- The digit that decides which way a numeral is rounded: the first of the characters that found no
room. A gap before it does not count, except right after a numeral that was short, where it stands
for a zero. -/
def decidingDigit (n : Numeral) (surplus : List Char) : Nat :=
  if n.wasShort ∧ surplus.head? = some '_' then 0
  else (surplus.findSome? Text.digit?).getD 0

/-- The numeral rounded by the characters that found no room, all of which are digits or gaps. -/
def absorb? (n : Numeral) (surplus : List Char) : Option Numeral :=
  if surplus.all fun c => c == '_' || c.isDigit then n.dropDigit? (n.decidingDigit surplus) else none

/-- Reads on from a numeral: whether the point has been seen, and whether any digit has. -/
def scan (n : Numeral) (afterPoint anyDigit : Bool) : List Char → Option Numeral
  | [] => if anyDigit then some n else none
  | c :: cs =>
      if afterPoint ∧ n.places = maxPlaces then n.absorb? (c :: cs)
      else
        match Text.digit? c with
        | some d =>
            match n.append? afterPoint d with
            | some next => scan next afterPoint true cs
            | none => if afterPoint then n.absorb? (c :: cs) else none
        | none =>
            if c = '.' ∧ !afterPoint then scan n true anyDigit cs
            else if c = '_' ∧ anyDigit then scan n afterPoint anyDigit cs
            else none

/-- The numeral written in plain notation. -/
def ofPlainChars? : List Char → Option Numeral
  | '-' :: cs => (scan zero false false cs).map withMinus
  | '+' :: cs => scan zero false false cs
  | cs => scan zero false false cs

/-! ## Scientific notation -/

/-- `10 ^ exponent` times a numeral, if it can be written without rounding it. -/
def scaleUp? (n : Numeral) (exponent : Nat) : Option Numeral :=
  if maxPlaces < exponent then none
  else if exponent ≤ n.places then of? n.negative n.mantissa (n.places - exponent)
  else of? n.negative (n.mantissa * tenTo (exponent - n.places)) 0

/-- Dropping the last places of a mantissa, rounded, leaves one that fits. -/
theorem fits_of_dropped (direction : Rounding) {mantissa dropped : Nat} (fits : mantissa ≤ maxMantissa)
    (h : dropped ≠ 0) : (direction.quotient mantissa (tenTo dropped)).natAbs ≤ maxMantissa := by
  have hcut : mantissa / tenTo dropped ≤ mantissa / 10 :=
    Nat.div_le_div_left (ten_le_tenTo h) (by omega)
  have := direction.natAbs_quotient_le mantissa (tenTo_pos dropped)
  simp only [Int.natAbs_natCast, maxMantissa] at *
  omega

/-- The numeral with at most the given number of places, a half rounded away from zero; its sign
stays, even where nothing else is left. -/
def within (n : Numeral) (places : Nat) : Numeral :=
  if h : places < n.places then
    ⟨n.negative, (Rounding.halfAway.quotient n.mantissa (tenTo (n.places - places))).natAbs, places,
      fits_of_dropped .halfAway n.mantissa_fits (Nat.sub_ne_zero_of_lt h),
      Nat.le_trans (Nat.le_of_lt h) n.places_le⟩
  else n

/-- `10 ^ -exponent` times a numeral, rounded to the places there are. -/
def scaleDown? (n : Numeral) (exponent : Nat) : Option Numeral :=
  if maxPlaces < exponent then none
  else
    let kept := n.within (maxPlaces - exponent)
    of? kept.negative kept.mantissa (kept.places + exponent)

/-- The digits of an exponent, after an optional plus sign. -/
def exponent? : List Char → Option Nat
  | '+' :: cs => Text.readDigits? cs
  | cs => Text.readDigits? cs

/-- The numeral written in scientific notation: a plain one, `e` or `E`, and a whole exponent. -/
def ofScientificChars? (cs : List Char) : Option Numeral :=
  let isMark := fun c => c == 'e' || c == 'E'
  match cs.dropWhile (fun c => !isMark c) with
  | [] => none
  | _ :: exponent =>
      (ofPlainChars? (cs.takeWhile fun c => !isMark c)).bind fun n =>
        match exponent with
        | '-' :: down => (exponent? down).bind n.scaleDown?
        | up => (exponent? up).bind n.scaleUp?

/-! ## Either notation -/

/-- The numeral written by a list of characters, in plain or in scientific notation. -/
def ofChars? (cs : List Char) : Option Numeral := (ofPlainChars? cs).or (ofScientificChars? cs)

/-- The numeral written by a text. -/
def read? (s : String) : Option Numeral := ofChars? s.toList

end Numeral

namespace Decimal

/-- A mantissa and its places after dropping the zeros at its end. -/
def shortened (mantissa : Nat) : Nat → Nat × Nat
  | 0 => (mantissa, 0)
  | places + 1 => if mantissa % 10 = 0 then shortened (mantissa / 10) places else (mantissa, places + 1)

/-- The decimal as characters, with as few places as it needs. -/
def chars (d : Decimal) : List Char :=
  let (mantissa, places) := shortened d.units.natAbs maxPlaces
  let plain := Numeral.pointed mantissa places
  if d.units < 0 then '-' :: plain else plain

/-- The decimal as text, with as few places as it needs. -/
def text (d : Decimal) : String := String.ofList d.chars

/-- The decimal written by a text, in plain or in scientific notation. -/
def ofText? (s : String) : Option Decimal := (Numeral.read? s).map Numeral.value

end Decimal

end Lotbook
