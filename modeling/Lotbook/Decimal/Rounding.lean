/-
# Lotbook.Decimal.Rounding -- whole quotients and the direction they are rounded in

A quotient of integers that does not come out even is rounded down (to the floor), up (to the
ceiling) or to the nearest whole number, where a half goes to the even neighbour or away from zero.
Whatever the direction, the result is one of the two whole neighbours of the exact quotient, which is
all that size bounds on rounded values need (`quotient_eq_floor_or_succ`, `natAbs_quotient_le`).
-/

namespace Lotbook

/-- Where a quotient goes that lies between two whole numbers. -/
inductive Rounding where
  | halfEven
  | halfAway
  | down
  | up
  deriving DecidableEq, Repr

namespace Rounding

/-- The whole quotient of `num` by `den`, rounded in the given direction. -/
def quotient (direction : Rounding) (num : Int) (den : Nat) : Int :=
  let below := num / den
  let rest := num % den
  match direction with
  | .down => below
  | .up => if rest = 0 then below else below + 1
  | .halfEven =>
      if 2 * rest < den then below
      else if (den : Int) < 2 * rest then below + 1
      else if below % 2 = 0 then below
      else below + 1
  | .halfAway =>
      if 2 * rest < den then below
      else if (den : Int) < 2 * rest then below + 1
      else if num < 0 then below
      else below + 1

/-- A rounded quotient is the floor of the exact quotient or its successor. -/
theorem quotient_eq_floor_or_succ (direction : Rounding) (num : Int) (den : Nat) :
    quotient direction num den = num / den ∨ quotient direction num den = num / den + 1 := by
  unfold quotient
  cases direction <;> grind

/-- A quotient that comes out even is not changed by any direction of rounding. -/
theorem quotient_mul_self (direction : Rounding) (n : Int) {den : Nat} (hden : 0 < den) :
    quotient direction (n * den) den = n := by
  have hne : (den : Int) ≠ 0 := by omega
  simp only [quotient, Int.mul_ediv_cancel n hne, Int.mul_emod_left]
  cases direction with
  | down => rfl
  | up => rfl
  | halfEven => exact if_pos (by omega)
  | halfAway => exact if_pos (by omega)

/-- Rounding moves the size of a quotient by at most one step. -/
theorem natAbs_quotient_le (direction : Rounding) (num : Int) {den : Nat} (hden : 0 < den) :
    (quotient direction num den).natAbs ≤ num.natAbs / den + 1 := by
  have hpos : (0 : Int) < den := by omega
  have low := Int.ediv_mul_le num (Int.ne_of_gt hpos)
  have high := Int.lt_ediv_add_one_mul_self num hpos
  have key : ∀ k : Nat, k * den ≤ num.natAbs → k ≤ num.natAbs / den := fun k hk =>
    (Nat.le_div_iff_mul_le hden).mpr hk
  rcases Int.lt_or_le (num / den) 0 with hneg | hnonneg
  · obtain ⟨k, hk⟩ := Int.exists_eq_neg_ofNat (a := num / den + 1) (by omega)
    rw [hk, Int.neg_mul] at high
    have := key k (by omega)
    rcases quotient_eq_floor_or_succ direction num den with h | h <;> omega
  · obtain ⟨k, hk⟩ := Int.eq_ofNat_of_zero_le hnonneg
    rw [hk] at low
    have := key k (by omega)
    rcases quotient_eq_floor_or_succ direction num den with h | h <;> omega

end Rounding

end Lotbook
