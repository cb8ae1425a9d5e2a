/-
# Lotbook.Proofs.ShortestDigits -- numbers of few digits are found again

The shortest digits of a magnitude are looked for on coarser grids before finer ones, and every point of a
coarser grid is one of the finer ones too. A number whose last place counts more than its last bit is further
away from the other points of its grid than a rounding interval is wide (`Binary64.Rounds.step_lt`). So the
first point that is found is the number itself, whichever of two equally near points the search prefers
(`Binary64.shortest_of_rounds`, `Binary64.shortest_of_lastBit_lt`).
-/
import Lotbook.Binary64.Shortest
import Lotbook.Proofs.DigitTexts
import Lotbook.Proofs.Magnitudes
import Mathlib.Algebra.Order.Floor.Semifield

namespace Lotbook.Binary64

/-! ## Significands and powers of ten -/

namespace Scientific

/-- The number that a decimal stands for. -/
def toRat (s : Scientific) : ℚ := s.significand * 10 ^ s.power

/-- Zeros at the end of a significand do not count. -/
theorem trim_spec (significand : Nat) (power : Int) (fuel : Nat) :
    (trim significand power fuel).toRat = significand * 10 ^ power ∧
      power ≤ (trim significand power fuel).power := by
  induction fuel generalizing significand power with
  | zero => exact ⟨rfl, le_rfl⟩
  | succ fuel ih =>
    unfold trim
    split
    · rename_i hzero
      obtain ⟨hvalue, hpower⟩ := ih (significand / 10) (power + 1)
      refine ⟨?_, by omega⟩
      have hten : ((significand / 10 : Nat) : ℚ) * 10 = significand := by
        exact_mod_cast Nat.div_mul_cancel (Nat.dvd_of_mod_eq_zero hzero)
      rw [hvalue, zpow_add_one₀ (by norm_num), ← hten]
      ring
    · exact ⟨rfl, le_rfl⟩

/-- Whether neither the significand nor the power of ten that it is divided by has to be rounded. -/
structure IsExact (s : Scientific) : Prop where
  power_ge : -s.power ≤ exactPowerOfTen
  bits : s.significand < twoTo precision

variable {s : Scientific}

/-- As a literal, such a decimal is rounded once. -/
theorem IsExact.ofSignificand?_eq (h : s.IsExact) (hneg : s.power < 0) :
    ofSignificand? s.significand s.power = ofRat? s.toRat := by
  have hpower := h.power_ge
  have hplaces : s.power = -((-s.power).toNat : Int) := by omega
  have hrounded : ofSignificand? s.significand (-((-s.power).toNat : Int)) =
      ofRat? (s.significand / 10 ^ (-s.power).toNat) :=
    ofSignificand?_eq_ofRat? s.significand 0 (Nat.mul_one _).symm h.bits (by decide) (by omega) (by omega)
  rw [← hplaces] at hrounded
  rw [hrounded, toRat, div_eq_mul_inv, ← zpow_natCast, ← zpow_neg, ← hplaces]

/-- Digits of a number are no more than those that the number is known to have. -/
theorem isExact_of_toRat {m places : Nat} (hvalue : s.toRat = m / 10 ^ places) (hpower : -places ≤ s.power)
    (hm : m < twoTo precision) (hplaces : places ≤ exactPowerOfTen) : s.IsExact := by
  have hstep : (0 : ℚ) < 10 ^ (-places : Int) := by positivity
  have hfewer : (s.significand : ℚ) ≤ m := by
    refine le_of_mul_le_mul_right ?_ hstep
    calc (s.significand : ℚ) * 10 ^ (-places : Int) ≤ s.toRat :=
          mul_le_mul_of_nonneg_left (zpow_le_zpow_right₀ (by norm_num) hpower) (Nat.cast_nonneg _)
      _ = m * 10 ^ (-places : Int) := by rw [hvalue, zpow_neg, zpow_natCast, div_eq_mul_inv]
  have hfewer : s.significand ≤ m := by exact_mod_cast hfewer
  exact ⟨by omega, lt_of_le_of_lt hfewer hm⟩

end Scientific

/-! ## Intervals -/

namespace Interval

/-- Whether a number lies in the interval. -/
def Contains (i : Interval) (q : ℚ) : Prop :=
  (i.low ≤ q * i.den ∧ q * i.den ≤ i.high) ∧
    (i.closed = false → i.low < q * i.den ∧ q * i.den < i.high)

theorem holds_iff (i : Interval) (n num : Nat) {den : Nat} (hden : 0 < den) :
    i.holds n num den = true ↔ i.Contains (n * (num / den)) := by
  have hdenQ : (0 : ℚ) < den := by exact_mod_cast hden
  have hpoint : (n : ℚ) * (num / den) * i.den = ((n * num * i.den : Nat) : ℚ) / den := by
    push_cast
    ring
  unfold holds Contains
  rw [hpoint, le_div_iff₀ hdenQ, div_le_iff₀ hdenQ, lt_div_iff₀ hdenQ, div_lt_iff₀ hdenQ]
  norm_cast
  cases i.closed with
  | true => simp
  | false =>
    simp only [Bool.false_eq_true, if_false, Bool.and_eq_true, decide_eq_true_eq, true_imp_iff]
    omega

/-- Two numbers in the interval are no further apart than its ends. -/
theorem Contains.near {i : Interval} {q r : ℚ} (hq : i.Contains q) (hr : i.Contains r) :
    |q - r| * i.den ≤ i.high - i.low := by
  have hden : (0 : ℚ) ≤ i.den := Nat.cast_nonneg _
  have hscaled : |q - r| * i.den = |q * i.den - r * i.den| := by
    rw [← sub_mul, abs_mul, abs_of_nonneg hden]
  rw [hscaled, abs_le]
  exact ⟨by linarith [hq.1.1, hr.1.2], by linarith [hq.1.2, hr.1.1]⟩

/-- The number that the interval is about. -/
def center (i : Interval) : ℚ := i.value / i.den

end Interval

/-! ## Logarithms -/

theorem Interval.floorLog10_eq_log {i : Interval} (hvalue : 0 < i.value) (hden : 0 < i.den) :
    i.floorLog10 = Int.log 10 i.center := by
  have hdenQ : (0 : ℚ) < i.den := by exact_mod_cast hden
  have hvalueQ : (0 : ℚ) < i.value := by exact_mod_cast hvalue
  unfold floorLog10 center
  split
  · rename_i hone
    have hlarge : (1 : ℚ) ≤ i.value / i.den := by
      rw [one_le_div hdenQ]
      exact_mod_cast hone
    rw [Text.length_digits (Nat.div_pos hone hden), Int.log_of_one_le_right 10 hlarge, Nat.floor_div_eq_div]
    push_cast
    ring
  · rename_i hsmall
    -- the largest whole number below the inverse
    set r := (i.den + i.value - 1) / i.value - 1 with hr
    have hceil : 2 ≤ (i.den + i.value - 1) / i.value := (Nat.le_div_iff_mul_le hvalue).mpr (by omega)
    have hdecomp := Nat.div_add_mod (i.den + i.value - 1) i.value
    have hrest := Nat.mod_lt (i.den + i.value - 1) hvalue
    rw [show (i.den + i.value - 1) / i.value = r + 1 by omega, Nat.mul_succ] at hdecomp
    have hbelow : i.value * r < i.den := by omega
    have habove : i.den ≤ i.value * (r + 1) := by
      rw [Nat.mul_succ]
      omega
    rw [Text.length_digits (by omega)]
    set k := Nat.log 10 r
    have hlow : 10 ^ k ≤ r := Nat.pow_log_le_self 10 (by omega)
    have hhigh : r + 1 ≤ 10 ^ (k + 1) := Nat.lt_pow_succ_log_self (by decide) r
    refine (log_eq_of_bounds (by decide) ?_ ?_).symm
    · rw [zpow_neg, zpow_natCast, inv_le_iff_one_le_mul₀ (by positivity), div_mul_eq_mul_div,
        one_le_div hdenQ]
      exact_mod_cast habove.trans (Nat.mul_le_mul_left _ hhigh)
    · rw [show -((k + 1 : Nat) : Int) + 1 = -(k : Int) by omega, zpow_neg, zpow_natCast,
        div_lt_iff₀ hdenQ, lt_inv_mul_iff₀ (by positivity), mul_comm]
      exact_mod_cast lt_of_le_of_lt (Nat.mul_le_mul_left _ hlow) hbelow

/-! ## Grids -/

namespace Interval

variable {i : Interval} {tie : Tie} {digits : Nat} {s : Scientific}

/-- A power of ten as numerator and denominator. -/
theorem powerOfTen_ratio (power : Int) :
    let step := if 0 ≤ power then (tenTo power.toNat, 1) else (1, tenTo (-power).toNat)
    (step.1 : ℚ) / (step.2 : Nat) = 10 ^ power ∧ 0 < step.1 ∧ 0 < step.2 := by
  dsimp only
  split
  · rename_i hnonneg
    refine ⟨?_, tenTo_pos _, Nat.one_pos⟩
    rw [Nat.cast_one, div_one, cast_tenTo, ← zpow_natCast, Int.toNat_of_nonneg hnonneg]
  · rename_i hneg
    refine ⟨?_, Nat.one_pos, tenTo_pos _⟩
    rw [Nat.cast_one, one_div, cast_tenTo, ← zpow_natCast, Int.toNat_of_nonneg (by omega), zpow_neg, inv_inv]

/-- The multiples of a step next to the center are those that a division without rest gives. -/
theorem center_bounds (hden : 0 < i.den) {num den : Nat} (hnum : 0 < num) (hscale : 0 < den) :
    ((i.value * den / (i.den * num) : Nat) : ℚ) * (num / den) ≤ i.center ∧
      i.center < ((i.value * den / (i.den * num) : Nat) + 1) * (num / den) := by
  set below := i.value * den / (i.den * num)
  have hdenQ : (0 : ℚ) < i.den := by exact_mod_cast hden
  have hscaleQ : (0 : ℚ) < den := by exact_mod_cast hscale
  have hlow : below * (i.den * num) ≤ i.value * den := Nat.div_mul_le_self _ _
  have hhigh : i.value * den < (below + 1) * (i.den * num) := by
    rw [Nat.mul_comm (below + 1)]
    exact Nat.lt_mul_div_succ _ (Nat.mul_pos hden hnum)
  constructor
  · rw [center, ← mul_div_assoc, div_le_div_iff₀ hscaleQ hdenQ]
    calc (below : ℚ) * num * i.den = ((below * (i.den * num) : Nat) : ℚ) := by push_cast; ring
      _ ≤ ((i.value * den : Nat) : ℚ) := by exact_mod_cast hlow
      _ = i.value * den := by push_cast; rfl
  · rw [center, ← mul_div_assoc, div_lt_div_iff₀ hdenQ hscaleQ]
    calc (i.value : ℚ) * den = ((i.value * den : Nat) : ℚ) := by push_cast; rfl
      _ < (((below + 1) * (i.den * num) : Nat) : ℚ) := by exact_mod_cast hhigh
      _ = (below + 1) * num * i.den := by push_cast; ring

/-- The points of a grid that are tried are the two next to the center, and one of them is found if either
lies in the interval. -/
theorem onGrid?_spec (hden : 0 < i.den) (tie : Tie) (digits : Nat) {power : Int}
    (hpower : power = i.floorLog10 - (digits - 1)) :
    ∃ below : Nat, below * 10 ^ power ≤ i.center ∧ i.center < (below + 1) * 10 ^ power ∧
      ((∃ s, i.onGrid? tie digits = some s ∧ s.power = power ∧ i.Contains s.toRat) ∨
        i.onGrid? tie digits = none ∧ ¬ i.Contains (below * 10 ^ power) ∧
          ¬ i.Contains ((below + 1) * 10 ^ power)) := by
  obtain ⟨hratio, hnum, hscale⟩ := powerOfTen_ratio power
  unfold onGrid?
  rw [← hpower]
  dsimp only at hratio hnum hscale ⊢
  generalize (if 0 ≤ power then (tenTo power.toNat, 1) else (1, tenTo (-power).toNat)) = step at *
  obtain ⟨num, den⟩ := step
  dsimp only at hratio hnum hscale ⊢
  set below := i.value * den / (i.den * num) with hbelow
  have hholds (n : Nat) : i.holds n num den = true ↔ i.Contains (n * 10 ^ power) := by
    rw [← hratio]
    exact holds_iff i n num hscale
  obtain ⟨hlow, hhigh⟩ := center_bounds hden hnum hscale
  rw [hratio, ← hbelow] at hlow hhigh
  refine ⟨below, hlow, hhigh, ?_⟩
  have hsucc := hholds (below + 1)
  rw [Nat.cast_succ] at hsucc
  generalize (if 2 * _ = _ then _ else _ : Bool) = nearerIsBelow
  have hfound {n : Nat} (hn : i.holds n num den = true) :
      i.Contains (⟨n, power⟩ : Scientific).toRat := (hholds n).mp hn
  cases hfits : i.holds below num den with
  | true =>
    refine .inl ?_
    cases hfits' : i.holds (below + 1) num den with
    | true =>
      cases nearerIsBelow with
      | true => exact ⟨_, rfl, rfl, hfound hfits⟩
      | false => exact ⟨_, rfl, rfl, hfound hfits'⟩
    | false => exact ⟨_, rfl, rfl, hfound hfits⟩
  | false =>
    cases hfits' : i.holds (below + 1) num den with
    | true => exact .inl ⟨_, rfl, rfl, hfound hfits'⟩
    | false =>
      refine .inr ⟨rfl, ?_, ?_⟩
      · rw [← hholds, hfits]
        decide
      · rw [← hsucc, hfits']
        decide

end Interval

/-! ## Places and bits -/

/-- A number of at most sixteen places is not that close below a power of two. -/
theorem lt_pow_sub_of_places {m places : Nat} {e : Int} (hplaces : places ≤ 16)
    (hstep : (2 : ℚ) ^ e < 1 / 10 ^ places) (hlt : (m : ℚ) / 10 ^ places < 2 ^ 53 * 2 ^ e) :
    (m : ℚ) / 10 ^ places < 2 ^ 53 * 2 ^ e - 2 ^ e / 2 := by
  have hplace : (0 : ℚ) < 10 ^ places := by positivity
  have hpos : (0 : ℚ) < 2 ^ e := by positivity
  have hpower : (2 : ℚ) ^ 53 * 2 ^ e = 2 ^ (53 + e) := by rw [zpow_add₀ two_ne_zero]; rfl
  rcases Int.lt_or_le (53 + e) 0 with hneg | hnonneg
  · -- a power of two below one has more places than the number
    obtain ⟨k, hk⟩ := Int.exists_eq_neg_ofNat hneg.le
    set w : ℚ := 2 ^ 53 * 2 ^ e with hw
    have hk : w = 1 / 2 ^ k := by rw [hpower, hk, zpow_neg, zpow_natCast, one_div]
    have hcross : m * 2 ^ k + 1 ≤ 10 ^ places := by
      rw [hk, div_lt_div_iff₀ hplace (by positivity), one_mul] at hlt
      exact_mod_cast hlt
    have hnext : (m : ℚ) / 10 ^ places + w / 10 ^ places ≤ w := by
      rw [← add_div, div_le_iff₀ hplace]
      calc (m : ℚ) + w = w * (m * 2 ^ k + 1) := by rw [hk]; field_simp
        _ ≤ w * 10 ^ places := mul_le_mul_of_nonneg_left (by exact_mod_cast hcross) (by positivity)
    have hfar : (10 : ℚ) ^ places < 2 ^ 54 :=
      (pow_le_pow_right₀ (by norm_num) hplaces).trans_lt (by norm_num)
    have hgap : 2 ^ e / 2 < w / 10 ^ places := by
      rw [div_lt_div_iff₀ two_pos hplace]
      calc (2 : ℚ) ^ e * 10 ^ places < 2 ^ e * 2 ^ 54 := mul_lt_mul_of_pos_left hfar hpos
        _ = w * 2 := by rw [hw]; ring
    linarith
  · -- a whole number is a place away
    obtain ⟨n, hn⟩ := Int.eq_ofNat_of_zero_le hnonneg
    rw [hpower, hn, zpow_natCast] at hlt ⊢
    have hcross : m + 1 ≤ 2 ^ n * 10 ^ places := by
      rw [div_lt_iff₀ hplace] at hlt
      exact_mod_cast hlt
    have hnext : (m : ℚ) / 10 ^ places + 1 / 10 ^ places ≤ 2 ^ n := by
      rw [← add_div, div_le_iff₀ hplace]
      exact_mod_cast hcross
    linarith

/-! ## Rounding intervals -/

variable {q r : ℚ} {x : Binary64}

theorem interval_den_pos (x : Binary64) : 0 < x.interval.den := scaled_den_pos ..

/-- A quarter of a step, over the denominator of the interval. -/
theorem quarter_step (x : Binary64) :
    ((scaled 1 (x.exponent - 2)).1 : ℚ) = 2 ^ x.exponent / 4 * x.interval.den := by
  have hden : (0 : ℚ) < x.interval.den := by exact_mod_cast x.interval_den_pos
  have hratio := scaled_ratio 1 (x.exponent - 2)
  rw [Nat.cast_one, one_mul, zpow_sub₀ two_ne_zero] at hratio
  exact (div_eq_iff hden.ne').mp (hratio.trans (by norm_num))

theorem interval_value (x : Binary64) : (x.interval.value : ℚ) = x.toRat * x.interval.den := by
  show ((4 * x.mantissa * (scaled 1 (x.exponent - 2)).1 : Nat) : ℚ) = _
  push_cast
  rw [quarter_step, toRat]
  ring

theorem interval_high (x : Binary64) :
    (x.interval.high : ℚ) = (x.toRat + 2 ^ x.exponent / 2) * x.interval.den := by
  show (((4 * x.mantissa + 2) * (scaled 1 (x.exponent - 2)).1 : Nat) : ℚ) = _
  push_cast
  rw [quarter_step, toRat]
  ring

theorem interval_center (x : Binary64) : x.interval.center = x.toRat := by
  have hden : (0 : ℚ) < x.interval.den := by exact_mod_cast x.interval_den_pos
  rw [Interval.center, interval_value, mul_div_cancel_right₀ _ hden.ne']

namespace Rounds

theorem mantissa_pos (h : Rounds q x) : 0 < x.mantissa :=
  lt_of_lt_of_le (Nat.pow_pos (by decide)) h.mantissa_ge

theorem interval_value_pos (h : Rounds q x) : 0 < x.interval.value := by
  have hden : (0 : ℚ) < x.interval.den := by exact_mod_cast x.interval_den_pos
  have hmantissa : (0 : ℚ) < x.mantissa := by exact_mod_cast h.mantissa_pos
  have hvalue : (0 : ℚ) < x.interval.value := by
    rw [interval_value, toRat]
    positivity
  exact_mod_cast hvalue

theorem interval_low (h : Rounds q x) :
    (x.interval.low : ℚ) = (x.toRat - (if x.mantissa = twoTo (precision - 1) then 2 ^ x.exponent / 4
      else 2 ^ x.exponent / 2)) * x.interval.den := by
  have hmantissa := h.mantissa_pos
  show (((4 * x.mantissa - (if x.mantissa = twoTo (precision - 1) ∧ minExponent < x.exponent then 1 else 2)) *
    (scaled 1 (x.exponent - 2)).1 : Nat) : ℚ) = _
  rw [Nat.cast_mul, quarter_step, toRat]
  by_cases hfine : x.mantissa = twoTo (precision - 1)
  · rw [if_pos ⟨hfine, h.exponent_gt⟩, if_pos hfine, Nat.cast_sub (by omega)]
    push_cast
    ring
  · rw [if_neg fun hboth => hfine hboth.1, if_neg hfine, Nat.cast_sub (by omega)]
    push_cast
    ring

/-- A number lies in the rounding interval of its magnitude. -/
theorem contains (h : Rounds q x) : x.interval.Contains q := by
  have hden : (0 : ℚ) < x.interval.den := by exact_mod_cast x.interval_den_pos
  have hclosed : x.interval.closed = decide (x.mantissa % 2 = 0) := rfl
  have hnear := h.near
  have hbelow := neg_abs_le (q - x.toRat)
  have habove := le_abs_self (q - x.toRat)
  -- beyond half a step to either side only where the mantissa is odd
  have hstrict (hopen : x.interval.closed = false) : 2 * |q - x.toRat| < 2 ^ x.exponent := by
    refine lt_of_le_of_ne hnear fun htie => ?_
    rw [hclosed, decide_eq_false_iff_not] at hopen
    exact hopen (h.even htie)
  unfold Interval.Contains
  rw [h.interval_low, interval_high]
  simp only [mul_le_mul_iff_of_pos_right hden, mul_lt_mul_iff_of_pos_right hden]
  by_cases hfine : x.mantissa = twoTo (precision - 1)
  · have hquarter := h.fine hfine
    rw [if_pos hfine]
    refine ⟨⟨hquarter, by linarith⟩, fun hopen => ?_⟩
    rw [hclosed, hfine] at hopen
    exact absurd hopen (by decide)
  · rw [if_neg hfine]
    refine ⟨⟨by linarith, by linarith⟩, fun hopen => ?_⟩
    have := hstrict hopen
    exact ⟨by linarith, by linarith⟩

/-- A rounding interval is not wider than a step. -/
theorem width_le (h : Rounds q x) :
    (x.interval.high : ℚ) - x.interval.low ≤ 2 ^ x.exponent * x.interval.den := by
  have hden : (0 : ℚ) < x.interval.den := by exact_mod_cast x.interval_den_pos
  have hstep : (0 : ℚ) < 2 ^ x.exponent := by positivity
  rw [h.interval_low, interval_high, ← sub_mul, mul_le_mul_iff_of_pos_right hden]
  split <;> linarith

/-- Two numbers in a rounding interval are at most a step apart. -/
theorem abs_sub_le (h : Rounds q x) (hr : x.interval.Contains r) : |r - q| ≤ 2 ^ x.exponent := by
  have hden : (0 : ℚ) < x.interval.den := by exact_mod_cast x.interval_den_pos
  exact le_of_mul_le_mul_right ((hr.near h.contains).trans h.width_le) hden

/-- A number whose digits make less than 2^52 without the point has a last place that is wider than a step. -/
theorem step_lt_of_lt {m places : Nat} (h : Rounds (m / 10 ^ places) x) (hm : m < twoTo (precision - 1)) :
    (2 : ℚ) ^ x.exponent < 1 / 10 ^ places := by
  have hbits : (2 : ℚ) ^ 52 ≤ x.mantissa := by exact_mod_cast h.mantissa_ge
  have hdigits : (m : ℚ) + 1 ≤ 2 ^ 52 := by exact_mod_cast hm
  have hplace : (0 : ℚ) < 1 / 10 ^ places := by positivity
  have hstep : (0 : ℚ) < 2 ^ x.exponent := by positivity
  have hnear := h.near
  have hbelow := neg_abs_le ((m : ℚ) / 10 ^ places - x.toRat)
  have hlarge : 2 ^ 52 * 2 ^ x.exponent ≤ x.toRat := mul_le_mul_of_nonneg_right hbits hstep.le
  have hsmall : (m : ℚ) / 10 ^ places ≤ (2 ^ 52 - 1) * (1 / 10 ^ places) := by
    rw [div_eq_mul_one_div]
    exact mul_le_mul_of_nonneg_right (by linarith) hplace.le
  by_contra hle
  have hle := not_lt.mp hle
  linarith

/-- A number whose last place counts more than its last bit has a last place that is wider than a step: it is
not rounded up to where the steps are wider. -/
theorem step_lt {m places : Nat} (h : Rounds (m / 10 ^ places) x) (hplaces : places ≤ 16)
    (hbit : (2 : ℚ) ^ lastBit (m / 10 ^ places) < 1 / 10 ^ places) :
    (2 : ℚ) ^ x.exponent < 1 / 10 ^ places := by
  have hapart := lt_pow_sub_of_places hplaces hbit (lt_pow_lastBit _)
  set q : ℚ := m / 10 ^ places
  have hsmall : (0 : ℚ) < 2 ^ lastBit q := by positivity
  suffices hle : x.exponent ≤ lastBit q from (zpow_le_zpow_right₀ one_le_two hle).trans_lt hbit
  by_contra hgt
  have hwide : 2 * (2 : ℚ) ^ lastBit q ≤ 2 ^ x.exponent := by
    rw [mul_comm, ← zpow_add_one₀ two_ne_zero]
    exact zpow_le_zpow_right₀ one_le_two (by omega)
  have hvalue : x.toRat = x.mantissa * 2 ^ x.exponent := rfl
  by_cases hfine : x.mantissa = twoTo (precision - 1)
  · have hquarter := h.fine hfine
    have hbits : (x.mantissa : ℚ) = 2 ^ 52 := by exact_mod_cast hfine
    rw [hvalue, hbits] at hquarter
    linarith
  · have hnear := h.near
    have hbelow := neg_abs_le (q - x.toRat)
    have hbits : (2 : ℚ) ^ 52 + 1 ≤ x.mantissa := by
      exact_mod_cast Nat.lt_of_le_of_ne h.mantissa_ge (Ne.symm hfine)
    have hlarge : (2 ^ 52 + 1) * (2 : ℚ) ^ x.exponent ≤ x.toRat :=
      mul_le_mul_of_nonneg_right hbits (by positivity)
    linarith

section WidePlaces

variable {m places : Nat}

/-- The leading digit of the magnitude of a number with a wide last place. -/
theorem floorLog10_bounds (h : Rounds (m / 10 ^ places) x) (hm : 2 ≤ m) (hlt : m < twoTo precision)
    (hwide : (2 : ℚ) ^ x.exponent < 1 / 10 ^ places) :
    -places ≤ x.interval.floorLog10 ∧ x.interval.floorLog10 < 16 - places := by
  have hnear := h.near
  have hbelow := neg_abs_le ((m : ℚ) / 10 ^ places - x.toRat)
  have habove := le_abs_self ((m : ℚ) / 10 ^ places - x.toRat)
  have hplace : (0 : ℚ) < 1 / 10 ^ places := by positivity
  have hscale : (m : ℚ) / 10 ^ places = m * (1 / 10 ^ places) := by rw [div_eq_mul_one_div]
  have htwo : 2 * (1 / 10 ^ places : ℚ) ≤ m * (1 / 10 ^ places) :=
    mul_le_mul_of_nonneg_right (by exact_mod_cast hm) hplace.le
  have hdigits : (m : ℚ) * (1 / 10 ^ places) ≤ (10 ^ 16 - 1) * (1 / 10 ^ places) := by
    refine mul_le_mul_of_nonneg_right ?_ hplace.le
    have : (m : ℚ) < 2 ^ 53 := by exact_mod_cast hlt
    linarith
  have hlow : (10 : ℚ) ^ (-places : Int) ≤ x.toRat := by
    rw [zpow_neg, zpow_natCast, ← one_div]
    linarith
  have hhigh : x.toRat < (10 : ℚ) ^ (16 - places : Int) := by
    rw [zpow_sub₀ (by norm_num), zpow_natCast, div_eq_mul_one_div]
    have : (10 : ℚ) ^ (16 : Int) = 10 ^ 16 := by norm_cast
    rw [this]
    linarith
  have hpos : 0 < x.toRat := lt_of_lt_of_le (by positivity) hlow
  rw [Interval.floorLog10_eq_log h.interval_value_pos x.interval_den_pos, interval_center]
  exact ⟨(Int.zpow_le_iff_le_log (by decide) hpos).mp (by exact_mod_cast hlow),
    (Int.lt_zpow_iff_log_lt (by decide) hpos).mp (by exact_mod_cast hhigh)⟩

/-- A point of the grid of a number's last place, or of a coarser one, that lies in the rounding interval of
the number is the number itself. -/
theorem eq_of_contains (h : Rounds (m / 10 ^ places) x)
    (hwide : (2 : ℚ) ^ x.exponent < 1 / 10 ^ places) {s : Scientific} (hpower : -places ≤ s.power)
    (hs : x.interval.Contains s.toRat) : s.toRat = m / 10 ^ places := by
  obtain ⟨n, hn⟩ : ∃ n : Nat, s.toRat = n / 10 ^ places := by
    refine ⟨s.significand * 10 ^ (s.power + places).toNat, ?_⟩
    rw [eq_div_iff (by positivity), Scientific.toRat, mul_assoc, ← zpow_natCast, ← zpow_add₀ (by norm_num)]
    push_cast
    rw [← zpow_natCast, Int.toNat_of_nonneg (by omega)]
  have hplace : (0 : ℚ) < 10 ^ places := by positivity
  have hclose : |((n : Int) : ℚ) - (m : Int)| < 1 := by
    have hstep := lt_of_le_of_lt (h.abs_sub_le hs) hwide
    rw [hn, ← sub_div, abs_div, abs_of_pos hplace, div_lt_div_iff_of_pos_right hplace] at hstep
    exact_mod_cast hstep
  have hsame : |(n : Int) - m| < 1 := by exact_mod_cast hclose
  rw [hn, show n = m by rw [Int.abs_lt_one_iff] at hsame; omega]

/-- A number with a wide last place is found on the grid of that place. -/
theorem onGrid?_ne_none (h : Rounds (m / 10 ^ places) x)
    (hwide : (2 : ℚ) ^ x.exponent < 1 / 10 ^ places) (tie : Tie) {digits : Nat}
    (hdigits : (digits : Int) = x.interval.floorLog10 + places + 1) :
    x.interval.onGrid? tie digits ≠ none := by
  intro hnone
  have hpower : (-places : Int) = x.interval.floorLog10 - (digits - 1) := by omega
  obtain ⟨below, hlow, hhigh, ⟨s, hs, -⟩ | ⟨-, hout, hout'⟩⟩ :=
    Interval.onGrid?_spec x.interval_den_pos tie digits hpower
  · rw [hs] at hnone
    cases hnone
  · rw [interval_center] at hlow hhigh
    have hstep : (0 : ℚ) < 10 ^ (-places : Int) := by positivity
    have hpoint : (m : ℚ) / 10 ^ places = m * 10 ^ (-places : Int) := by
      rw [zpow_neg, zpow_natCast, div_eq_mul_inv]
    rw [one_div, ← zpow_natCast, ← zpow_neg] at hwide
    have hcontains := h.contains
    have hnear := h.near
    have hbelow := neg_abs_le ((m : ℚ) / 10 ^ places - x.toRat)
    have habove := le_abs_self ((m : ℚ) / 10 ^ places - x.toRat)
    rw [hpoint] at hcontains hnear hbelow habove
    have hle : (below : ℚ) < m + 1 := lt_of_mul_lt_mul_right (by linarith) hstep.le
    have hge : (m : ℚ) < below + 2 := lt_of_mul_lt_mul_right (by linarith) hstep.le
    have hle : below < m + 1 := by exact_mod_cast hle
    have hge : m < below + 2 := by exact_mod_cast hge
    obtain rfl | rfl : m = below ∨ m = below + 1 := by omega
    · exact hout hcontains
    · exact hout' (by exact_mod_cast hcontains)

end WidePlaces

end Rounds

/-- A search through the numbers in order ends no later than at one that is known to be good. -/
theorem exists_findSome?_range {α : Type} {f : Nat → Option α} {n k : Nat} (hk : k < n) (h : f k ≠ none) :
    ∃ j ≤ k, ∃ a, f j = some a ∧ (List.range n).findSome? f = some a := by
  have hsome : ((List.range n).findSome? f).isSome :=
    List.findSome?_isSome_iff.mpr ⟨k, List.mem_range.mpr hk, Option.isSome_iff_ne_none.mpr h⟩
  obtain ⟨a, ha⟩ := Option.isSome_iff_exists.mp hsome
  obtain ⟨front, j, back, hsplit, hj, hfront⟩ := List.findSome?_eq_some_iff.mp ha
  refine ⟨j, ?_, a, hj, ha⟩
  have hmem : k ∈ front ++ j :: back := hsplit ▸ List.mem_range.mpr hk
  rcases List.mem_append.mp hmem with hmem | hmem
  · exact absurd (hfront k hmem) h
  · have hsorted : (front ++ j :: back).Pairwise (· < ·) := hsplit ▸ List.pairwise_lt_range
    rcases List.mem_cons.mp hmem with rfl | hmem
    · exact le_rfl
    · exact ((List.pairwise_cons.mp (List.pairwise_append.mp hsorted).2.1).1 k hmem).le

/-- The shortest digits of the magnitude of a number with a wide last place are those of the number, and none
of them is further behind the point than that place. -/
theorem shortest_of_rounds {m places : Nat} (h : Rounds (m / 10 ^ places) x) (hm : 2 ≤ m)
    (hlt : m < twoTo precision) (hwide : (2 : ℚ) ^ x.exponent < 1 / 10 ^ places) (tie : Tie) :
    (x.shortest tie).toRat = m / 10 ^ places ∧ -places ≤ (x.shortest tie).power := by
  obtain ⟨hlow, hhigh⟩ := h.floorLog10_bounds hm hlt hwide
  obtain ⟨last, hlast⟩ := Int.eq_ofNat_of_zero_le (show 0 ≤ x.interval.floorLog10 + places by omega)
  have hfound : x.interval.onGrid? tie (last + 1) ≠ none :=
    h.onGrid?_ne_none hwide tie (by push_cast; omega)
  obtain ⟨fewer, hle, s, hs, hfirst⟩ :=
    exists_findSome?_range (f := fun n => x.interval.onGrid? tie (n + 1)) (show last < 17 by omega) hfound
  -- coarser grids are tried first, but their points lie on the grid of the number too
  have hgrid : s.power = x.interval.floorLog10 - ((fewer + 1 : Nat) - 1) ∧ x.interval.Contains s.toRat := by
    obtain ⟨below, -, -, ⟨s', hs', hspec⟩ | ⟨hnone, -⟩⟩ :=
      Interval.onGrid?_spec x.interval_den_pos tie (fewer + 1) rfl
    · obtain rfl := Option.some.inj (hs.symm.trans hs')
      exact hspec
    · rw [hnone] at hs
      cases hs
  obtain ⟨hpower, hcontains⟩ := hgrid
  have hpower : -places ≤ s.power := by
    push_cast at hpower
    omega
  have hvalue := h.eq_of_contains hwide hpower hcontains
  have hshortest : x.shortest tie = .trim s.significand s.power 17 := by
    unfold shortest
    rw [if_neg (by simp [isZero, h.mantissa_pos.ne'])]
    dsimp only
    rw [hfirst]
  obtain ⟨htrim, hmore⟩ := Scientific.trim_spec s.significand s.power 17
  rw [hshortest, htrim]
  exact ⟨hvalue, hpower.trans hmore⟩

/-- Where the last place of a number counts more than its last bit, the shortest digits of its magnitude are
those of the number. -/
theorem shortest_of_lastBit_lt {m places : Nat} (h : Rounds (m / 10 ^ places) x) (hpos : m ≠ 0)
    (hplaces : places ≤ 16) (hbit : (2 : ℚ) ^ lastBit (m / 10 ^ places) < 1 / 10 ^ places) (tie : Tie) :
    (x.shortest tie).toRat = m / 10 ^ places ∧ (x.shortest tie).IsExact := by
  by_cases hone : m = 1
  · -- the magnitude of a single one may be below it and lead with a nine, so it is taken as a ten
    have hten : (m : ℚ) / 10 ^ places = (10 : Nat) / 10 ^ (places + 1) := by
      rw [hone, pow_succ]
      push_cast
      field_simp
    rw [hten] at h ⊢
    obtain ⟨hvalue, hpower⟩ :=
      shortest_of_rounds h (by decide) (by decide) (h.step_lt_of_lt (by decide)) tie
    exact ⟨hvalue, Scientific.isExact_of_toRat hvalue hpower (by decide)
      ((Nat.succ_le_succ hplaces).trans (by decide))⟩
  · have hlt : m < twoTo precision := by
      have hplace : (0 : ℚ) < 1 / 10 ^ places := by positivity
      have hbits := (lt_pow_lastBit ((m : ℚ) / 10 ^ places)).trans (mul_lt_mul_of_pos_left hbit (by positivity))
      rw [div_eq_mul_one_div, mul_lt_mul_iff_of_pos_right hplace] at hbits
      exact_mod_cast hbits
    obtain ⟨hvalue, hpower⟩ := shortest_of_rounds h (by omega) hlt (h.step_lt hplaces hbit) tie
    exact ⟨hvalue, Scientific.isExact_of_toRat hvalue hpower hlt (hplaces.trans (by decide))⟩

end Lotbook.Binary64
