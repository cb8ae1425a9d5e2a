/-
# Lotbook.Proofs.Magnitudes -- how double precision rounds a number

The magnitude nearest to a quotient depends on the number alone, not on how it is written as a quotient
(`Binary64.nearest?_eq_ofRat?`), so rounding is stated of rational numbers. A number with few bits is its own
magnitude (`Binary64.exists_ofRat?_exact`). Any other number within reach is at most half of the last bit
away from its magnitude, and then the mantissa is even (`Binary64.exists_ofRat?_rounds`). A literal of few
digits is divided by a power of ten without rounding either of them, which leaves one rounding in all
(`Binary64.ofSignificand?_eq_ofRat?`).
-/
import Lotbook.Binary64.Basic
import Lotbook.Proofs.Grids
import Mathlib.Algebra.Order.Field.Power
import Mathlib.Algebra.Order.Field.Rat
import Mathlib.Data.Int.Log
import Mathlib.Data.Rat.Floor
import Mathlib.Tactic.FieldSimp
import Mathlib.Tactic.NormNum
import Mathlib.Tactic.Positivity

namespace Lotbook

theorem cast_tenTo (n : Nat) : ((tenTo n : Nat) : ℚ) = 10 ^ n := Nat.cast_pow 10 n

theorem cast_twoTo (n : Nat) : ((twoTo n : Nat) : ℚ) = 2 ^ n := Nat.cast_pow 2 n

/-! ## Whole numbers nearby -/

namespace Rounding

variable {num num' : Int} {den den' : Nat}

/-- A number halfway between two whole ones is rounded to the even one. -/
theorem halfEven_even (hden : 0 < den) (h : 2 * |quotient .halfEven num den * den - num| = den) :
    quotient .halfEven num den % 2 = 0 := by
  have hdecomp := Int.mul_ediv_add_emod num den
  have hcomm : (den : Int) * (num / den) = num / den * den := Int.mul_comm ..
  have hsucc : (num / den + 1) * (den : Int) = num / den * den + den := by ring
  have hrest := Int.emod_nonneg num (b := den) (by omega)
  have hlt := Int.emod_lt_of_pos num (b := den) (by omega)
  have htwo (e : Int) (h : 2 * |e| = den) : 2 * e = den ∨ 2 * e = -den := by
    rcases abs_cases e with ⟨he, -⟩ | ⟨he, -⟩ <;> rw [he] at h <;> omega
  unfold quotient at h ⊢
  dsimp only at h ⊢
  split_ifs at h ⊢ with hbelow habove heven
  · rcases htwo _ h with h | h <;> omega
  · rcases htwo _ h with h | h <;> omega
  · exact heven
  · omega

/-- A quotient rounded half-even depends on the number alone. -/
theorem halfEven_congr (hden : 0 < den) (hden' : 0 < den') (h : num * den' = num' * den) :
    quotient .halfEven num den = quotient .halfEven num' den' := by
  rw [← halfEven_mul_mul num den hden', ← halfEven_mul_mul num' den' hden, h, Nat.mul_comm]

end Rounding

/-- The whole number nearest to a number, the even one of two. -/
def nearestWhole (q : ℚ) : Int := Rounding.halfEven.quotient q.num q.den

theorem quotient_eq_nearestWhole (num : Int) {den : Nat} (hden : 0 < den) :
    Rounding.halfEven.quotient num den = nearestWhole (num / den) := by
  set q : ℚ := num / den with hq
  refine Rounding.halfEven_congr hden q.den_pos ?_
  have hcross : (num : ℚ) * q.den = q.num * den := by
    rw [← Rat.num_div_den q, div_eq_div_iff (by positivity) (by positivity)] at hq
    exact hq.symm
  exact_mod_cast hcross

/-- The error of rounding to a whole number, with the denominator cleared. -/
theorem abs_sub_nearestWhole (q : ℚ) :
    2 * |q - nearestWhole q| * q.den = 2 * |nearestWhole q * q.den - q.num| := by
  have hpos : (0 : ℚ) < q.den := by exact_mod_cast q.den_pos
  have hnum : q * q.den = q.num := Rat.mul_den_eq_num q
  have herror : |q - nearestWhole q| * q.den = |(nearestWhole q : ℚ) * q.den - q.num| := by
    rw [← abs_of_pos hpos, ← abs_mul, abs_of_pos hpos, sub_mul, hnum, abs_sub_comm]
  rw [mul_assoc, herror]
  push_cast
  rfl

theorem nearestWhole_near (q : ℚ) : 2 * |q - nearestWhole q| ≤ 1 := by
  have hpos : (0 : ℚ) < q.den := by exact_mod_cast q.den_pos
  have hclose := @Rounding.halfEven_close q.num q.den q.den_pos
  refine le_of_mul_le_mul_right ?_ hpos
  rw [abs_sub_nearestWhole, one_mul]
  exact_mod_cast hclose

theorem nearestWhole_even {q : ℚ} (h : 2 * |q - nearestWhole q| = 1) : nearestWhole q % 2 = 0 := by
  refine Rounding.halfEven_even q.den_pos ?_
  have hscaled := abs_sub_nearestWhole q
  rw [h, one_mul] at hscaled
  exact_mod_cast hscaled.symm

theorem le_nearestWhole {q : ℚ} {n : Int} (h : n ≤ q) : n ≤ nearestWhole q := by
  refine Rounding.le_quotient_of_mul_le q.den_pos ?_
  have hscaled := mul_le_mul_of_nonneg_right h (Nat.cast_nonneg q.den)
  rw [Rat.mul_den_eq_num] at hscaled
  exact_mod_cast hscaled

theorem nearestWhole_intCast (n : Int) : nearestWhole n = n := by
  have hone := Rounding.quotient_mul_self .halfEven n Nat.one_pos
  simpa [nearestWhole] using hone

/-! ## Values and exponents -/

theorem log_eq_of_bounds {b : Nat} {q : ℚ} {k : Int} (hb : 1 < b) (hlow : (b : ℚ) ^ k ≤ q)
    (hhigh : q < (b : ℚ) ^ (k + 1)) : Int.log b q = k := by
  have hbQ : (0 : ℚ) < b := by exact_mod_cast Nat.zero_lt_of_lt hb
  have hpos : 0 < q := lt_of_lt_of_le (zpow_pos hbQ k) hlow
  have hle := (Int.zpow_le_iff_le_log hb hpos).mp hlow
  have hlt := (Int.lt_zpow_iff_log_lt hb hpos).mp hhigh
  omega

namespace Binary64

/-- The value of a magnitude. -/
def toRat (x : Binary64) : ℚ := x.mantissa * 2 ^ x.exponent

theorem scaled_ratio (n : Nat) (exponent : Int) :
    ((scaled n exponent).1 : ℚ) / (scaled n exponent).2 = n * 2 ^ exponent := by
  unfold scaled
  split
  · rename_i hnonneg
    rw [Nat.cast_one, div_one, Nat.cast_mul, cast_twoTo, ← zpow_natCast, Int.toNat_of_nonneg hnonneg]
  · rename_i hneg
    rw [cast_twoTo, ← zpow_natCast, Int.toNat_of_nonneg (by omega), zpow_neg, div_inv_eq_mul]

theorem scaled_den_pos (n : Nat) (exponent : Int) : 0 < (scaled n exponent).2 := by
  unfold scaled
  split
  · exact Nat.one_pos
  · exact Nat.pow_pos (by decide)

theorem toQuotient_ratio (x : Binary64) : (x.toQuotient.1 : ℚ) / x.toQuotient.2 = x.toRat :=
  scaled_ratio x.mantissa x.exponent

theorem toQuotient_den_pos (x : Binary64) : 0 < x.toQuotient.2 := scaled_den_pos ..

theorem scaled_le_iff {num den : Nat} (hden : 0 < den) (exponent : Int) :
    den * (scaled 1 exponent).1 ≤ num * (scaled 1 exponent).2 ↔ (2 : ℚ) ^ exponent ≤ num / den := by
  have hdenQ : (0 : ℚ) < den := by exact_mod_cast hden
  have hscale : (0 : ℚ) < (scaled 1 exponent).2 := by exact_mod_cast scaled_den_pos 1 exponent
  have hratio := scaled_ratio 1 exponent
  rw [Nat.cast_one, one_mul] at hratio
  rw [← hratio, div_le_div_iff₀ hscale hdenQ, mul_comm ((scaled 1 exponent).1 : ℚ)]
  exact_mod_cast Iff.rfl

/-- The bits of numerator and denominator tell the logarithm of a quotient up to one. -/
theorem ratio_bounds {num den : Nat} (hnum : 0 < num) (hden : 0 < den) :
    (2 : ℚ) ^ ((num.log2 : Int) - den.log2 - 1) ≤ num / den ∧
      (num : ℚ) / den < 2 ^ ((num.log2 : Int) - den.log2 + 1) := by
  have hdenQ : (0 : ℚ) < den := by exact_mod_cast hden
  have hbelow {n : Nat} (hn : 0 < n) : (2 : ℚ) ^ (n.log2 : Int) ≤ n := by
    exact_mod_cast Nat.log2_self_le hn.ne'
  have habove (n : Nat) : (n : ℚ) < 2 ^ (n.log2 + 1 : Int) := by
    exact_mod_cast Nat.lt_log2_self (n := n)
  constructor
  · rw [le_div_iff₀ hdenQ]
    calc (2 : ℚ) ^ ((num.log2 : Int) - den.log2 - 1) * den
        ≤ 2 ^ ((num.log2 : Int) - den.log2 - 1) * 2 ^ (den.log2 + 1 : Int) :=
          mul_le_mul_of_nonneg_left (habove den).le (by positivity)
      _ = 2 ^ (num.log2 : Int) := by
          rw [← zpow_add₀ two_ne_zero]
          congr 1
          omega
      _ ≤ num := hbelow hnum
  · rw [div_lt_iff₀ hdenQ]
    calc (num : ℚ) < 2 ^ (num.log2 + 1 : Int) := habove num
      _ = 2 ^ ((num.log2 : Int) - den.log2 + 1) * 2 ^ (den.log2 : Int) := by
          rw [← zpow_add₀ two_ne_zero]
          congr 1
          omega
      _ ≤ 2 ^ ((num.log2 : Int) - den.log2 + 1) * den :=
          mul_le_mul_of_nonneg_left (hbelow hden) (by positivity)

theorem floorLog2_eq_log {num den : Nat} (hnum : 0 < num) (hden : 0 < den) :
    floorLog2 num den = Int.log 2 ((num : ℚ) / den) := by
  obtain ⟨hlow, hhigh⟩ := ratio_bounds hnum hden
  unfold floorLog2
  dsimp only
  split
  · rename_i htrue
    exact (log_eq_of_bounds (by decide) (by exact_mod_cast (scaled_le_iff hden _).mp htrue)
      (by exact_mod_cast hhigh)).symm
  · rename_i hfalse
    have hbelow := not_le.mp (mt (scaled_le_iff hden _).mpr hfalse)
    refine (log_eq_of_bounds (by decide) (by exact_mod_cast hlow) ?_).symm
    rw [Int.sub_add_cancel]
    exact_mod_cast hbelow

/-! ## Rounding -/

/-- What the last bit of the magnitude nearest to a number counts for, as an exponent of two. -/
def lastBit (q : ℚ) : Int := max (Int.log 2 q - (precision - 1)) minExponent

/-- The magnitude nearest to a number. -/
def ofRat? (q : ℚ) : Option Binary64 :=
  if q = 0 then some zero else carried? (nearestWhole (q / 2 ^ lastBit q)).natAbs (lastBit q)

/-- The nearest magnitude depends on the number alone, not on how it is written as a quotient. -/
theorem nearest?_eq_ofRat? (num : Nat) {den : Nat} (hden : 0 < den) :
    nearest? num den = ofRat? (num / den) := by
  have hdenQ : (0 : ℚ) < den := by exact_mod_cast hden
  unfold nearest? ofRat?
  by_cases hzero : num = 0
  · rw [if_pos hzero, if_pos (by rw [hzero, Nat.cast_zero, zero_div])]
  rw [if_neg hzero, if_neg (div_ne_zero (by exact_mod_cast hzero) hdenQ.ne')]
  have hlast : max (floorLog2 num den - (precision - 1)) minExponent = lastBit (num / den) := by
    rw [floorLog2_eq_log (Nat.pos_of_ne_zero hzero) hden, lastBit]
  dsimp only
  rw [hlast]
  set e := lastBit ((num : ℚ) / den)
  have hup : 0 < (scaled 1 e).1 := by
    unfold scaled
    split
    · exact Nat.mul_pos Nat.one_pos (Nat.pow_pos (by decide))
    · exact Nat.one_pos
  have hratio := scaled_ratio 1 e
  rw [Nat.cast_one, one_mul] at hratio
  rw [quotient_eq_nearestWhole _ (Nat.mul_pos hden hup)]
  congr 3
  push_cast
  rw [← hratio, div_div_div_eq]

/-- Numbers are smaller than 2^53 times their last bits. -/
theorem lt_pow_lastBit (q : ℚ) : q < 2 ^ 53 * 2 ^ lastBit q := by
  have hlog : q < 2 ^ (Int.log 2 q + 1) := by
    simpa using Int.lt_zpow_succ_log_self (b := 2) (by decide) q
  have hlast : Int.log 2 q - 52 ≤ lastBit q := le_max_left _ _
  refine hlog.trans_le ?_
  rw [← zpow_natCast, ← zpow_add₀ two_ne_zero]
  exact zpow_le_zpow_right₀ one_le_two (by omega)

/-- Numbers within reach are at least 2^52 times their last bits. -/
theorem pow_lastBit_le {q : ℚ} (hlow : 2 ^ (-1000 : Int) ≤ q) :
    lastBit q = Int.log 2 q - 52 ∧ 2 ^ 52 * 2 ^ lastBit q ≤ q := by
  have hpos : 0 < q := lt_of_lt_of_le (by positivity) hlow
  have hlog : -1000 ≤ Int.log 2 q :=
    (Int.zpow_le_iff_le_log (by decide) hpos).mp (by exact_mod_cast hlow)
  have hlast : lastBit q = Int.log 2 q - 52 := max_eq_left (by simp only [minExponent, precision]; omega)
  refine ⟨hlast, ?_⟩
  rw [← zpow_natCast, ← zpow_add₀ two_ne_zero, hlast]
  simpa using Int.zpow_log_le_self (b := 2) (by decide) hpos

/-- How a magnitude is related to a number that is rounded to it: at most half of its last bit apart, where
its mantissa is even if it is exactly half. Below a power of two, where the steps are finer, it is at most
a quarter. -/
structure Rounds (q : ℚ) (x : Binary64) : Prop where
  mantissa_ge : twoTo (precision - 1) ≤ x.mantissa
  exponent_gt : minExponent < x.exponent
  near : 2 * |q - x.toRat| ≤ 2 ^ x.exponent
  even : 2 * |q - x.toRat| = 2 ^ x.exponent → x.mantissa % 2 = 0
  fine : x.mantissa = twoTo (precision - 1) → x.toRat - 2 ^ x.exponent / 4 ≤ q

/-- A mantissa of all ones that is rounded up is the same number with one bit and the next exponent. -/
theorem carried?_eq_some {m : Nat} {e : Int} (he : e < maxExponent) :
    ∃ x, carried? m e = some x ∧ x.toRat = m * 2 ^ e ∧
      (m = twoTo precision ∧ x = ⟨twoTo (precision - 1), e + 1⟩ ∨ m ≠ twoTo precision ∧ x = ⟨m, e⟩) := by
  unfold carried?
  by_cases hm : m = twoTo precision
  · simp only [if_pos hm]
    refine ⟨_, if_pos (by omega), ?_, .inl ⟨hm, rfl⟩⟩
    show (twoTo (precision - 1) : ℚ) * 2 ^ (e + 1) = m * 2 ^ e
    rw [hm, cast_twoTo, cast_twoTo, zpow_add_one₀ two_ne_zero, show precision = precision - 1 + 1 from rfl,
      pow_succ, Nat.add_sub_cancel]
    ring
  · simp only [if_neg hm]
    exact ⟨_, if_pos he.le, rfl, .inr ⟨hm, rfl⟩⟩

variable {q : ℚ}

/-- A mantissa at most half a step away is that of a magnitude that the number is rounded to. -/
theorem exists_carried?_rounds {m : Nat} {e : Int} (hge : twoTo (precision - 1) ≤ m) (hlow : minExponent < e)
    (hhigh : e < maxExponent) (hnear : 2 * |q - m * 2 ^ e| ≤ 2 ^ e)
    (heven : 2 * |q - m * 2 ^ e| = 2 ^ e → m % 2 = 0) (hbelow : (2 : ℚ) ^ 52 * 2 ^ e ≤ q) :
    ∃ x, carried? m e = some x ∧ Rounds q x := by
  have hstep : (0 : ℚ) < 2 ^ e := by positivity
  obtain ⟨x, hx, hvalue, ⟨-, rfl⟩ | ⟨-, rfl⟩⟩ := carried?_eq_some (m := m) hhigh
  · -- one step is two of the steps below
    have htwice : (2 : ℚ) ^ (e + 1) = 2 * 2 ^ e := by rw [zpow_add_one₀ two_ne_zero, mul_comm]
    have hside := neg_abs_le (q - m * 2 ^ e)
    have hpower : twoTo (precision - 1) % 2 = 0 := by decide
    refine ⟨_, hx, le_rfl, hlow.trans (lt_add_one e), ?_, fun _ => hpower, fun _ => ?_⟩
    · rw [hvalue, htwice]
      linarith
    · rw [hvalue, htwice]
      linarith
  · refine ⟨_, hx, hge, hlow, by rwa [hvalue], fun htie => heven (by rwa [hvalue] at htie), fun hfine => ?_⟩
    have hpower : (m : ℚ) = 2 ^ 52 := by rw [show m = twoTo 52 from hfine, cast_twoTo]
    rw [hvalue, hpower]
    linarith

/-- A number within the reach of normal magnitudes is rounded to one of them. -/
theorem exists_ofRat?_rounds (hlow : 2 ^ (-1000 : Int) ≤ q) (hhigh : q < 2 ^ (900 : Int)) :
    ∃ x, ofRat? q = some x ∧ Rounds q x := by
  have hpos : 0 < q := lt_of_lt_of_le (by positivity) hlow
  have hlog : -1000 ≤ Int.log 2 q :=
    (Int.zpow_le_iff_le_log (by decide) hpos).mp (by exact_mod_cast hlow)
  have hlog' : Int.log 2 q < 900 :=
    (Int.lt_zpow_iff_log_lt (by decide) hpos).mp (by exact_mod_cast hhigh)
  obtain ⟨hlast, hbelow⟩ := pow_lastBit_le hlow
  rw [ofRat?, if_neg hpos.ne']
  set e := lastBit q
  have hstep : (0 : ℚ) < 2 ^ e := by positivity
  have hge : 2 ^ 52 ≤ nearestWhole (q / 2 ^ e) :=
    le_nearestWhole (by exact_mod_cast (le_div_iff₀ hstep).mpr hbelow)
  obtain ⟨m, hm⟩ := Int.eq_ofNat_of_zero_le (le_trans (by decide) hge)
  have hnear := nearestWhole_near (q / 2 ^ e)
  have heven := @nearestWhole_even (q / 2 ^ e)
  have herror : 2 * |q - m * 2 ^ e| = 2 * |q / 2 ^ e - m| * 2 ^ e := by
    rw [mul_assoc, ← abs_of_pos hstep, ← abs_mul, abs_of_pos hstep, sub_mul,
      div_mul_cancel₀ _ hstep.ne']
  rw [hm, Int.cast_natCast] at hnear heven
  rw [hm] at hge ⊢
  rw [Int.natAbs_natCast]
  refine exists_carried?_rounds (by exact_mod_cast hge) (by simp only [minExponent]; omega)
    (by simp only [maxExponent]; omega) ?_ (fun htie => ?_) hbelow
  · rw [herror]
    exact mul_le_of_le_one_left hstep.le hnear
  · rw [herror, mul_eq_right₀ hstep.ne'] at htie
    exact_mod_cast heven htie

/-- A number with no more bits than a mantissa is its own magnitude. -/
theorem exists_ofRat?_exact {m : Nat} {k : Int} (hm : m < twoTo precision) (hlow : minExponent ≤ k)
    (hhigh : k < maxExponent) : ∃ x, ofRat? (m * 2 ^ k) = some x ∧ x.toRat = m * 2 ^ k := by
  by_cases hzero : m = 0
  · refine ⟨zero, if_pos (by rw [hzero, Nat.cast_zero, zero_mul]), ?_⟩
    rw [hzero, Nat.cast_zero, zero_mul]
    exact zero_mul _
  set q : ℚ := m * 2 ^ k with hq
  have hmQ : (0 : ℚ) < m := by exact_mod_cast Nat.pos_of_ne_zero hzero
  have hpos : 0 < q := by positivity
  have hlog : Int.log 2 q < k + 53 := by
    refine (Int.lt_zpow_iff_log_lt (by decide) hpos).mp ?_
    have hbits : (m : ℚ) < 2 ^ 53 := by exact_mod_cast hm
    rw [hq, Nat.cast_ofNat, zpow_add₀ two_ne_zero, mul_comm]
    exact mul_lt_mul_of_pos_left hbits (by positivity)
  have hle : lastBit q ≤ k := max_le (by simp only [precision]; omega) hlow
  -- whole steps, so that nothing is rounded
  have hsteps : q / 2 ^ lastBit q = ((m * 2 ^ (k - lastBit q).toNat : Nat) : Int) := by
    push_cast
    rw [← zpow_natCast, Int.toNat_of_nonneg (Int.sub_nonneg.mpr hle), zpow_sub₀ two_ne_zero,
      ← mul_div_assoc]
  obtain ⟨x, hx, hvalue, -⟩ := carried?_eq_some (m := m * 2 ^ (k - lastBit q).toNat)
    (hle.trans_lt hhigh)
  refine ⟨x, ?_, ?_⟩
  · rw [ofRat?, if_neg hpos.ne', hsteps, nearestWhole_intCast, Int.natAbs_natCast, hx]
  · rw [hvalue, ← Int.cast_natCast, ← hsteps, div_mul_cancel₀ _ (by positivity)]

/-! ## Literals -/

theorem div?_eq_ofRat? (x : Binary64) {y : Binary64} (hy : y.toRat ≠ 0) :
    x.div? y = ofRat? (x.toRat / y.toRat) := by
  have hnum : 0 < y.toQuotient.1 := by
    refine Nat.pos_of_ne_zero fun hzero => hy ?_
    rw [← toQuotient_ratio, hzero, Nat.cast_zero, zero_div]
  unfold div?
  dsimp only
  rw [nearest?_eq_ofRat? _ (Nat.mul_pos x.toQuotient_den_pos hnum), ← toQuotient_ratio, ← toQuotient_ratio,
    div_div_div_eq]
  push_cast
  rfl

/-- The powers of ten that have few enough bits. -/
def exactPowerOfTen : Nat := 22

theorem exists_powerOfTen? {power : Nat} (h : power ≤ exactPowerOfTen) :
    ∃ x, powerOfTen? power = some x ∧ x.toRat = 10 ^ power := by
  have hbits : 5 ^ power < twoTo precision :=
    lt_of_le_of_lt (Nat.pow_le_pow_right (by decide) h) (by decide)
  have hsplit : ((5 ^ power : Nat) : ℚ) * 2 ^ (power : Int) = 10 ^ power := by
    rw [zpow_natCast, Nat.cast_pow, ← mul_pow]
    norm_num
  have hhigh : (power : Int) < maxExponent := by
    simp only [exactPowerOfTen] at h
    simp only [maxExponent]
    omega
  have hexact := exists_ofRat?_exact hbits (k := power) (by simp only [minExponent]; omega) hhigh
  rw [hsplit] at hexact
  obtain ⟨x, hx, hvalue⟩ := hexact
  refine ⟨x, ?_, hvalue⟩
  rw [powerOfTen?, nearest?_eq_ofRat? _ Nat.one_pos, Nat.cast_one, div_one, cast_tenTo, hx]

/-- A significand with few bits over a power of ten with few bits is rounded once. -/
theorem ofSignificand?_eq_ofRat? {significand places : Nat} (m k : Nat)
    (hsignificand : significand = m * 2 ^ k) (hm : m < twoTo precision) (hk : k ≤ 900) (hplaces : places ≠ 0)
    (hfew : places ≤ exactPowerOfTen) :
    ofSignificand? significand (-places) = ofRat? (significand / 10 ^ places) := by
  obtain ⟨x, hx, hvalue⟩ := exists_ofRat?_exact hm (k := k) (by simp only [minExponent]; omega)
    (by simp only [maxExponent]; omega)
  have hcast : (m : ℚ) * 2 ^ (k : Int) = significand := by
    rw [hsignificand, zpow_natCast]
    push_cast
    rfl
  rw [hcast] at hx hvalue
  obtain ⟨y, hy, hpower⟩ := exists_powerOfTen? hfew
  have hread : nearest? significand 1 = some x := by
    rw [nearest?_eq_ofRat? _ Nat.one_pos, Nat.cast_one, div_one, hx]
  unfold ofSignificand?
  rw [hread, Option.bind_some, if_pos (by omega), Int.neg_neg, Int.toNat_natCast, scaleDown?,
    if_pos (hfew.trans (by decide)), hy, Option.bind_some, div?_eq_ofRat? x (by rw [hpower]; positivity),
    hvalue, hpower]

end Binary64

end Lotbook
