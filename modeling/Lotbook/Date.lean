/-
# Lotbook.Date -- calendar dates

Dates of the proleptic Gregorian calendar, written `YYYY-MM-DD`. Years outside 0 to 9999 are written
with a sign and at least four digits. Reading is more liberal than writing: white space may stand in
front of each number and each dash and at the end, leading zeros may be missing, and a year with a
sign may have any number of digits.
-/
import Lotbook.Order
import Lotbook.Text.Blank
import Lotbook.Text.Digits

namespace Lotbook

/-! ## The calendar -/

namespace Date

/-- The first year of the calendar. -/
def firstYear : Int := -262143

/-- The last year of the calendar. -/
def lastYear : Int := 262142

/-- Every fourth year is a leap year, except the centuries that four hundred does not divide. -/
def IsLeap (year : Int) : Prop := year % 4 = 0 ∧ (year % 100 = 0 → year % 400 = 0)

instance (year : Int) : Decidable (IsLeap year) := inferInstanceAs (Decidable (_ ∧ _))

/-- The number of days in a month. -/
def daysIn (year : Int) (month : Nat) : Nat :=
  if month = 2 then (if IsLeap year then 29 else 28)
  else if month ∈ [4, 6, 9, 11] then 30
  else 31

/-- The day exists in the calendar. -/
def Valid (year : Int) (month day : Nat) : Prop :=
  (firstYear ≤ year ∧ year ≤ lastYear) ∧ (1 ≤ month ∧ month ≤ 12) ∧ 1 ≤ day ∧ day ≤ daysIn year month

instance (year : Int) (month day : Nat) : Decidable (Valid year month day) :=
  inferInstanceAs (Decidable (_ ∧ _))

end Date

/-- A day of the calendar. -/
structure Date where
  year : Int
  month : Nat
  day : Nat
  valid : Date.Valid year month day := by decide
  deriving DecidableEq

namespace Date

instance : Ranked Date where
  rank d := [d.year, d.month, d.day]
  rank_injective a b h := by
    obtain ⟨y, m, d, _⟩ := a
    obtain ⟨y', m', d', _⟩ := b
    obtain ⟨rfl, hm, hd⟩ : y = y' ∧ (m : Int) = m' ∧ (d : Int) = d' := by simpa using h
    obtain rfl := Int.ofNat_inj.mp hm
    obtain rfl := Int.ofNat_inj.mp hd
    rfl

/-- The day with these numbers, if there is one. -/
def of? (year : Int) (month day : Nat) : Option Date :=
  if h : Valid year month day then some ⟨year, month, day, h⟩ else none

/-! ## Writing -/

/-- The year as it is written. -/
def yearChars (year : Int) : List Char :=
  if 0 ≤ year ∧ year ≤ 9999 then Text.paddedDigits 4 year.natAbs
  else (if year < 0 then '-' else '+') :: Text.paddedDigits 4 year.natAbs

/-- The date as text. -/
def text (d : Date) : String :=
  String.ofList (yearChars d.year ++ '-' :: Text.paddedDigits 2 d.month ++ '-' :: Text.paddedDigits 2 d.day)

/-! ## Reading -/

/-- A number of at most `width` digits in front of a text, after any white space. -/
def number? (width : Nat) (cs : List Char) : Option (Nat × List Char) :=
  let cs := Text.trimFront cs
  let (ds, rest) := Text.spanDigits cs
  (Text.readDigits? (ds.take width)).map fun n => (n, ds.drop width ++ rest)

/-- A year in front of a text: four digits at most, or a sign and any number of them. -/
def year? (cs : List Char) : Option (Int × List Char) :=
  let signed := fun (sign : Int) (cs : List Char) =>
    let (ds, rest) := Text.spanDigits cs
    (Text.readDigits? ds).map fun n => (sign * n, rest)
  match Text.trimFront cs with
  | '-' :: cs => signed (-1) cs
  | '+' :: cs => signed 1 cs
  | cs => (number? 4 cs).map fun (n, rest) => ((n : Int), rest)

/-- What follows a dash, after any white space. -/
def dash? (cs : List Char) : Option (List Char) :=
  match Text.trimFront cs with
  | '-' :: rest => some rest
  | _ => none

/-- The date written by a text. -/
def read? (s : String) : Option Date := do
  let (year, rest) ← year? s.toList
  let (month, rest) ← number? 2 (← dash? rest)
  let (day, rest) ← number? 2 (← dash? rest)
  if Text.trimFront rest = [] then of? year month day else none

end Date

end Lotbook
