/-
# Lotbook.Decimal.Basic -- arithmetic on decimals

Arithmetic takes the exact rational result and rounds it half-even to the largest number of places
at which its mantissa still fits (`nearest?`). A result that does not fit even without any places is
an `ArithmeticFault`. Main statements: an operation whose exact result is itself representable
returns it (`add_eq_ok`, `sub_eq_ok`), and rounding to fewer places never fails (`roundTo`).
-/
import Lotbook.Decimal.Rounding
import Lotbook.Fault

namespace Lotbook

namespace Decimal

/-! ## Results that fit -/

/-- The quotient of `num` by `den` rounded half-even to `places`, if its mantissa fits. -/
def atPlaces? (num : Int) (den : Nat) (places : Nat) : Option Decimal :=
  let mantissa := Rounding.halfEven.quotient (num * tenTo places) den
  if fits : mantissa.natAbs ≤ maxMantissa then some (ofMantissa mantissa places fits) else none

/-- The quotient at the largest number of places, at most `places`, at which its mantissa fits. -/
def nearestFrom? (num : Int) (den : Nat) : Nat → Option Decimal
  | 0 => atPlaces? num den 0
  | places + 1 => (atPlaces? num den (places + 1)).or (nearestFrom? num den places)

/-- The decimal that stands for the exact quotient of `num` by `den`, if it is small enough. -/
def nearest? (num : Int) (den : Nat) : Option Decimal := nearestFrom? num den maxPlaces

/-- The decimal nearest to a quotient, or the fault that says whose result is too large. -/
def nearest (fault : ArithmeticFault) (num : Int) (den : Nat) : Except ArithmeticFault Decimal :=
  match nearest? num den with
  | some d => .ok d
  | none => .error fault

/-! ## Arithmetic -/

/-- The sum, rounded to what fits. -/
def add (a b : Decimal) : Except ArithmeticFault Decimal :=
  nearest .additionOverflow (a.units + b.units) unit

/-- The difference, rounded to what fits. -/
def sub (a b : Decimal) : Except ArithmeticFault Decimal :=
  nearest .subtractionOverflow (a.units - b.units) unit

/-- The product, rounded to what fits. -/
def mul (a b : Decimal) : Except ArithmeticFault Decimal :=
  nearest .multiplicationOverflow (a.units * b.units) (unit * unit)

/-- The quotient, rounded to what fits. -/
def div (a b : Decimal) : Except ArithmeticFault Decimal :=
  if b = 0 then .error .divisionByZero
  else nearest .divisionOverflow (a.units * b.units.sign) b.units.natAbs

/-- The sum of a list from the left, starting at zero. -/
def sum (terms : List Decimal) : Except ArithmeticFault Decimal := terms.foldlM add 0

/-! ## Rounding to fewer places -/

/-- Rounding a count of units to a coarser grid leaves a mantissa that fits. -/
theorem Representable.quotient_mul {u : Int} (h : Representable u) (direction : Rounding) {q : Nat}
    (hq : q ≤ maxPlaces) : Representable (direction.quotient u (tenTo q) * tenTo q) := by
  obtain ⟨shift, hshift, mantissa, hfits, rfl⟩ := h
  rcases Nat.lt_or_ge shift q with hlt | hge
  · refine ⟨q, hq, _, ?_, rfl⟩
    have hstep : tenTo q = tenTo (q - shift) * tenTo shift := by
      rw [← tenTo_add, Nat.sub_add_cancel (Nat.le_of_lt hlt)]
    have hcut : mantissa.natAbs / tenTo (q - shift) ≤ mantissa.natAbs / 10 :=
      Nat.div_le_div_left (ten_le_tenTo (by omega)) (by decide)
    have := direction.natAbs_quotient_le (mantissa * tenTo shift) (tenTo_pos q)
    rw [Int.natAbs_mul, Int.natAbs_natCast, hstep, Nat.mul_div_mul_right _ _ (tenTo_pos shift),
      ← hstep] at this
    simp only [maxMantissa] at *
    omega
  · refine ⟨shift, hshift, mantissa, hfits, ?_⟩
    have hstep : tenTo shift = tenTo (shift - q) * tenTo q := by
      rw [← tenTo_add, Nat.sub_add_cancel hge]
    rw [hstep, Int.natCast_mul, ← Int.mul_assoc]
    exact congrArg (· * (tenTo q : Int)) (direction.quotient_mul_self _ (tenTo_pos q))

/-- The number rounded to at most `places` places; it stays as it is when 28 places are allowed. -/
def roundTo (direction : Rounding) (places : Nat) (a : Decimal) : Decimal :=
  if _h : places < maxPlaces then
    ⟨direction.quotient a.units (tenTo (maxPlaces - places)) * tenTo (maxPlaces - places),
      a.representable.quotient_mul direction (Nat.sub_le ..)⟩
  else a

/-- Half-even rounding, the rule where no other is named. -/
def round (places : Nat) (a : Decimal) : Decimal := a.roundTo .halfEven places

/-! ## Exact results -/

/-- Where a quotient comes out even, its mantissa is the quotient itself. -/
theorem atPlaces?_of_mul_eq {num : Int} {den places : Nat} {mantissa : Int} (hden : 0 < den)
    (h : num * tenTo places = mantissa * den) :
    atPlaces? num den places =
      if fits : mantissa.natAbs ≤ maxMantissa then some (ofMantissa mantissa places fits) else none := by
  simp only [atPlaces?, h, Rounding.halfEven.quotient_mul_self mantissa hden]

/-- A count of units with a mantissa at some number of places is found from there on upwards. -/
theorem nearestFrom?_of_mantissa {shift : Nat} {mantissa : Int} (hshift : shift ≤ maxPlaces)
    (fits : mantissa.natAbs ≤ maxMantissa) (places : Nat) (hlow : maxPlaces - shift ≤ places)
    (hhigh : places ≤ maxPlaces) :
    nearestFrom? (mantissa * tenTo shift) unit places =
      some ⟨mantissa * tenTo shift, shift, hshift, mantissa, fits, rfl⟩ := by
  have hunit : 0 < unit := tenTo_pos maxPlaces
  have hpow : ∀ i j k l : Nat, i + j = k + l →
      mantissa * tenTo i * (tenTo j : Int) = mantissa * tenTo k * tenTo l := by
    intro i j k l h
    rw [Int.mul_assoc, Int.mul_assoc, ← Int.natCast_mul, ← Int.natCast_mul, ← tenTo_add, ← tenTo_add, h]
  have hat : ∀ p, maxPlaces - shift ≤ p →
      mantissa * tenTo shift * tenTo p = mantissa * tenTo (shift + p - maxPlaces) * (unit : Nat) :=
    fun p _ => hpow _ _ _ _ (by omega)
  have hval : ∀ p, maxPlaces - shift ≤ p → p ≤ maxPlaces →
      mantissa * tenTo (shift + p - maxPlaces) * tenTo (maxPlaces - p) = mantissa * tenTo shift := by
    intro p _ _
    simpa using hpow (shift + p - maxPlaces) (maxPlaces - p) shift 0 (by omega)
  induction places with
  | zero =>
    rw [nearestFrom?, atPlaces?_of_mul_eq hunit (hat 0 hlow)]
    have hexact : shift - maxPlaces = 0 := by omega
    rw [dif_pos (by simpa [hexact] using fits)]
    exact congrArg some (ext_units (hval 0 hlow hhigh))
  | succ places ih =>
    rw [nearestFrom?, atPlaces?_of_mul_eq hunit (hat _ hlow)]
    split
    · exact congrArg some (ext_units (hval _ hlow hhigh))
    · rename_i hbig
      refine ih ?_ (by omega)
      rcases Nat.lt_or_ge places (maxPlaces - shift) with hlt | hge
      · have : shift + (places + 1) - maxPlaces = 0 := by omega
        simp [this, fits] at hbig
      · exact hge

/-- A count of units that is representable is its own nearest decimal. -/
theorem nearest?_of_representable {u : Int} (h : Representable u) :
    nearest? u unit = some ⟨u, h⟩ := by
  obtain ⟨shift, hshift, mantissa, fits, rfl⟩ := h
  exact nearestFrom?_of_mantissa hshift fits maxPlaces (Nat.sub_le ..) (Nat.le_refl _)

/-- A sum that is a decimal is the result of addition. -/
theorem add_eq_ok {a b : Decimal} (h : Representable (a.units + b.units)) :
    add a b = .ok ⟨a.units + b.units, h⟩ := by
  simp only [add, nearest, nearest?_of_representable h]

/-- A difference that is a decimal is the result of subtraction. -/
theorem sub_eq_ok {a b : Decimal} (h : Representable (a.units - b.units)) :
    sub a b = .ok ⟨a.units - b.units, h⟩ := by
  simp only [sub, nearest, nearest?_of_representable h]

end Decimal

end Lotbook
