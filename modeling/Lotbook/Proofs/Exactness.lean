/-
# Lotbook.Proofs.Exactness -- computations in which nothing rounds

A sum or a difference of decimals is the exact one as long as the exact one is a decimal itself, and zero
stays zero in products, quotients and roundings. A list is summed exactly if all of its partial sums are
decimals (`Decimal.sum_exact`), and a fold is exact if each of its steps is (`Throughout`).
-/
import Lotbook.Decimal.Basic
import Lotbook.Proofs.Outcome
import Mathlib.Algebra.BigOperators.Group.List.Basic
import Mathlib.Algebra.Ring.Int.Defs

namespace Lotbook

namespace Decimal

theorem representable_iff {u : Int} :
    Representable u ↔ ∃ shift, shift < maxPlaces + 1 ∧ (u / tenTo shift).natAbs ≤ maxMantissa ∧
      u = u / tenTo shift * tenTo shift := by
  constructor
  · rintro ⟨shift, hshift, mantissa, hfits, rfl⟩
    have hpos := tenTo_pos shift
    have hdiv : mantissa * tenTo shift / tenTo shift = mantissa :=
      Int.mul_ediv_cancel mantissa (by omega)
    exact ⟨shift, by omega, by rwa [hdiv], by rw [hdiv]⟩
  · rintro ⟨shift, hshift, hfits, heq⟩
    exact ⟨shift, by omega, _, hfits, heq⟩

instance (u : Int) : Decidable (Representable u) := decidable_of_iff _ representable_iff.symm

theorem add_exact {a b : Decimal} (h : Representable (a.units + b.units)) :
    ∃ c, a.add b = .ok c ∧ c.units = a.units + b.units := ⟨_, add_eq_ok h, rfl⟩

theorem sub_exact {a b : Decimal} (h : Representable (a.units - b.units)) :
    ∃ c, a.sub b = .ok c ∧ c.units = a.units - b.units := ⟨_, sub_eq_ok h, rfl⟩

theorem units_min (a b : Decimal) : (a.min b).units = Min.min a.units b.units := by
  unfold min
  split
  · rename_i hle
    exact (Int.min_eq_left hle).symm
  · rename_i hle
    exact (Int.min_eq_right (Int.le_of_lt (Int.not_le.mp hle))).symm

theorem units_max (a b : Decimal) : (a.max b).units = Max.max a.units b.units := by
  unfold max
  split
  · rename_i hle
    exact (Int.max_eq_right hle).symm
  · rename_i hle
    exact (Int.max_eq_left (Int.le_of_lt (Int.not_le.mp hle))).symm

/-! ## Zero -/

theorem pos_of_ne_zero {a : Decimal} (hle : 0 ≤ a) (hne : a ≠ 0) : 0 < a :=
  Int.lt_of_not_ge fun hge => hne (ext_units (Int.le_antisymm hge hle))

theorem ne_zero_of_pos {a : Decimal} (h : 0 < a) : a ≠ 0 := by
  rintro rfl
  exact Int.lt_irrefl 0 h

theorem ne_zero_of_neg {a : Decimal} (h : a < 0) : a ≠ 0 := by
  rintro rfl
  exact Int.lt_irrefl 0 h

theorem nearest_zero (fault : ArithmeticFault) (den : Nat) : nearest fault 0 den = .ok 0 := by
  have hquotient : Rounding.halfEven.quotient 0 den = 0 := by
    simp only [Rounding.quotient, Int.zero_ediv, Int.zero_emod]
    grind
  have hmost : atPlaces? 0 den maxPlaces = some 0 := by
    simp only [atPlaces?, Int.zero_mul, hquotient]
    rfl
  have hfound : nearest? 0 den = some 0 := by
    show (atPlaces? 0 den maxPlaces).or _ = some 0
    rw [hmost]
    rfl
  rw [nearest, hfound]

theorem zero_mul (a : Decimal) : (0 : Decimal).mul a = .ok 0 := by
  rw [mul, units_zero, Int.zero_mul]
  exact nearest_zero ..

theorem zero_div {a : Decimal} (ha : a ≠ 0) : (0 : Decimal).div a = .ok 0 := by
  rw [div, if_neg ha, units_zero, Int.zero_mul]
  exact nearest_zero ..

theorem roundTo_zero (direction : Rounding) (places : Nat) :
    (0 : Decimal).roundTo direction places = 0 := by
  unfold roundTo
  split
  · apply ext_units
    have hquotient := direction.quotient_mul_self 0 (tenTo_pos (maxPlaces - places))
    rw [Int.zero_mul] at hquotient
    show direction.quotient 0 _ * _ = 0
    rw [hquotient, Int.zero_mul]
  · rfl

/-! ## Sums -/

/-- The exact sums of the first terms, for every number of terms. -/
def partialSums (terms : List Decimal) : List Int := (terms.map units).scanl (· + ·) 0

theorem foldlM_add_exact {terms : List Decimal} {a : Decimal}
    (h : ∀ u ∈ (terms.map units).scanl (· + ·) a.units, Representable u) :
    ∃ c, terms.foldlM add a = .ok c ∧ c.units = a.units + (terms.map units).sum := by
  induction terms generalizing a with
  | nil => exact ⟨a, rfl, by simp⟩
  | cons x terms ih =>
    rw [List.map_cons, List.scanl_cons] at h
    have hx : Representable (a.units + x.units) := by
      refine h _ (List.mem_cons_of_mem _ ?_)
      cases terms <;> simp
    obtain ⟨b, hb, hunits⟩ := add_exact hx
    obtain ⟨c, hc, hsum⟩ := ih (a := b) fun u hu => h u (List.mem_cons_of_mem _ (hunits ▸ hu))
    refine ⟨c, by rw [List.foldlM_cons, hb]; exact hc, ?_⟩
    rw [hsum, hunits, List.map_cons, List.sum_cons]
    omega

/-- A list whose partial sums are decimals is summed without rounding. -/
theorem sum_exact {terms : List Decimal} (h : ∀ u ∈ partialSums terms, Representable u) :
    ∃ c, sum terms = .ok c ∧ c.units = (terms.map units).sum := by
  obtain ⟨c, hc, hunits⟩ := foldlM_add_exact (a := 0) h
  exact ⟨c, hc, by simpa using hunits⟩

end Decimal

/-! ## Sums over some items -/

/-- Items that add nothing may be left out of a sum. -/
theorem sum_map_filter {α M : Type} [AddMonoid M] {xs : List α} {p : α → Bool} {f : α → M}
    (h : ∀ x ∈ xs, p x = false → f x = 0) : (xs.map f).sum = ((xs.filter p).map f).sum := by
  induction xs with
  | nil => rfl
  | cons x xs ih =>
    rw [List.map_cons, List.sum_cons, ih fun y hy => h y (List.mem_cons_of_mem x hy)]
    cases hp : p x with
    | false => rw [List.filter_cons_of_neg (by simp [hp]), h x List.mem_cons_self hp, zero_add]
    | true => rw [List.filter_cons_of_pos hp, List.map_cons, List.sum_cons]

/-! ## Folds -/

section Folds

variable {ε α β : Type} {step : β → α → Except ε β} {P : β → α → Prop}

/-- Whether a condition holds of every step of a fold. -/
def Throughout (step : β → α → Except ε β) (P : β → α → Prop) : β → List α → Prop
  | _, [] => True
  | b, x :: xs => P b x ∧ ∀ b' ∈ (step b x).toOption, Throughout step P b' xs

instance Throughout.decidable [∀ b x, Decidable (P b x)] :
    ∀ (b : β) (xs : List α), Decidable (Throughout step P b xs)
  | _, [] => isTrue trivial
  | b, x :: xs =>
      have (b' : β) : Decidable (Throughout step P b' xs) := Throughout.decidable b' xs
      inferInstanceAs (Decidable (P b x ∧ ∀ b' ∈ (step b x).toOption, Throughout step P b' xs))

theorem Throughout.of_forall {b : β} {xs : List α} (h : ∀ x ∈ xs, ∀ b, P b x) :
    Throughout step P b xs := by
  induction xs generalizing b with
  | nil => trivial
  | cons x xs ih =>
    exact ⟨h x List.mem_cons_self b, fun b' _ => ih fun y hy => h y (List.mem_cons_of_mem x hy)⟩

theorem Throughout.of_cons {b b' : β} {x : α} {xs : List α} (h : Throughout step P b (x :: xs))
    (hstep : step b x = .ok b') : P b x ∧ Throughout step P b' xs :=
  ⟨h.1, h.2 b' (by rw [hstep]; rfl)⟩

/-- A fold goes through if each of its steps does under the condition. -/
theorem Throughout.exists_ok (hstep : ∀ b x, P b x → ∃ b', step b x = .ok b') {b : β} {xs : List α}
    (h : Throughout step P b xs) : ∃ b', xs.foldlM step b = .ok b' := by
  induction xs generalizing b with
  | nil => exact ⟨b, rfl⟩
  | cons x xs ih =>
    obtain ⟨b₁, hb₁⟩ := hstep b x h.1
    obtain ⟨b₂, hb₂⟩ := ih (h.of_cons hb₁).2
    exact ⟨b₂, foldlM_cons_ok hb₁ hb₂⟩

theorem Throughout.of_append {b : β} {xs ys : List α} (h : Throughout step P b (xs ++ ys)) :
    Throughout step P b xs ∧ ∀ b', xs.foldlM step b = .ok b' → Throughout step P b' ys := by
  induction xs generalizing b with
  | nil =>
    refine ⟨trivial, fun b' hb' => ?_⟩
    obtain rfl : b = b' := pure_eq_ok_iff.mp hb'
    exact h
  | cons x xs ih =>
    refine ⟨⟨h.1, fun b' hb' => (ih (h.2 b' hb')).1⟩, fun b' hb' => ?_⟩
    rw [List.foldlM_cons, bind_eq_ok_iff] at hb'
    obtain ⟨b₁, hstep, hrest⟩ := hb'
    exact (ih (h.of_cons hstep).2).2 b' hrest

end Folds

end Lotbook
