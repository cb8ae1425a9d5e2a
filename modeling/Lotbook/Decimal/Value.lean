/-
# Lotbook.Decimal.Value -- decimals with a bounded mantissa

A decimal is a whole mantissa of at most 96 bits over a power of ten with at most 28 places. It is
kept as its count of smallest units (10^-28), so that two decimals are equal exactly when their
values are (`ext_units`), together with the fact that the count has such a mantissa.
-/
import Lotbook.Power

namespace Lotbook

/-! ## The type -/

namespace Decimal

/-- The most places a decimal can have. -/
def maxPlaces : Nat := 28

/-- The largest mantissa: 96 bits. -/
def maxMantissa : Nat := 79228162514264337593543950335

/-- How many smallest units make one. -/
def unit : Nat := tenTo maxPlaces

/-- A count of smallest units that a mantissa of bounded size makes at some number of places. -/
def Representable (units : Int) : Prop :=
  ∃ shift ≤ maxPlaces, ∃ mantissa : Int, mantissa.natAbs ≤ maxMantissa ∧ units = mantissa * tenTo shift

end Decimal

/-- A decimal number, as its count of 10^-28. -/
structure Decimal where
  units : Int
  representable : Decimal.Representable units
  deriving DecidableEq

namespace Decimal

theorem ext_units {a b : Decimal} (h : a.units = b.units) : a = b := by
  cases a; cases b; cases h; rfl

/-- The decimal with the given mantissa and places; places beyond 28 count as 28. -/
def ofMantissa (mantissa : Int) (places : Nat) (fits : mantissa.natAbs ≤ maxMantissa) : Decimal where
  units := mantissa * tenTo (maxPlaces - places)
  representable := ⟨maxPlaces - places, Nat.sub_le .., mantissa, fits, rfl⟩

instance : Inhabited Decimal := ⟨ofMantissa 0 0 (by decide)⟩

instance : Zero Decimal := ⟨ofMantissa 0 0 (by decide)⟩

instance : One Decimal := ⟨ofMantissa 1 0 (by decide)⟩

@[simp] theorem units_zero : (0 : Decimal).units = 0 := rfl

theorem eq_zero_iff {a : Decimal} : a = 0 ↔ a.units = 0 :=
  ⟨fun h => h ▸ rfl, fun h => ext_units h⟩

/-! ## Order, sign and size -/

instance : LT Decimal := ⟨fun a b => a.units < b.units⟩

instance : LE Decimal := ⟨fun a b => a.units ≤ b.units⟩

instance (a b : Decimal) : Decidable (a < b) := inferInstanceAs (Decidable (a.units < b.units))

instance (a b : Decimal) : Decidable (a ≤ b) := inferInstanceAs (Decidable (a.units ≤ b.units))

theorem Representable.neg {u : Int} (h : Representable u) : Representable (-u) := by
  obtain ⟨shift, hshift, mantissa, hfits, rfl⟩ := h
  exact ⟨shift, hshift, -mantissa, by simpa using hfits, by rw [Int.neg_mul]⟩

instance : Neg Decimal := ⟨fun a => ⟨-a.units, a.representable.neg⟩⟩

@[simp] theorem units_neg (a : Decimal) : (-a).units = -a.units := rfl

/-- The distance from zero. -/
def abs (a : Decimal) : Decimal := if a < 0 then -a else a

/-- The smaller of two decimals. -/
def min (a b : Decimal) : Decimal := if a ≤ b then a else b

/-- The larger of two decimals. -/
def max (a b : Decimal) : Decimal := if a ≤ b then b else a

end Decimal

end Lotbook
