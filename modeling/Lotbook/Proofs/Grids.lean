/-
# Lotbook.Proofs.Grids -- which side of the exact result a rounded one falls on

A quotient is rounded half-even at as many places as fit, and then down or up at fewer. It is close to the
exact one (`Decimal.nearest_close`), and as long as the numbers are small it is known which side of it the
outcome falls on (`Decimal.nearest_sides_iff`); inequalities are stated with denominators cleared. Whole
factors keep a number on the grid that it is on (`Decimal.mul_whole`).
-/
import Lotbook.Proofs.Exactness
import Lotbook.Split.Ratio
import Mathlib.Algebra.Order.Ring.Abs
import Mathlib.Tactic.Linarith
import Mathlib.Tactic.Ring

namespace Lotbook

/-! ## Rounded quotients -/

namespace Rounding

variable {direction : Rounding} {num m : Int} {den : Nat}

/-- A rounded quotient does not go beyond a whole number that the exact one does not go beyond. -/
theorem quotient_le_of_le_mul (hden : 0 < den) (h : num ≤ m * den) :
    quotient direction num den ≤ m := by
  have hpos : (0 : Int) < den := by omega
  have hfloor : num / den ≤ m := Int.ediv_le_of_le_mul hpos h
  rcases Int.lt_or_eq_of_le hfloor with hlt | heq
  · rcases quotient_eq_floor_or_succ direction num den with h | h <;> omega
  · have hnum : num = m * den := by
      have := Int.ediv_mul_le num (Int.ne_of_gt hpos)
      rw [heq] at this
      omega
    rw [hnum, quotient_mul_self direction m hden]

theorem le_quotient_of_mul_le (hden : 0 < den) (h : m * den ≤ num) :
    m ≤ quotient direction num den := by
  have hpos : (0 : Int) < den := by omega
  have hfloor : m ≤ num / den := Int.le_ediv_of_mul_le hpos h
  rcases quotient_eq_floor_or_succ direction num den with h | h <;> omega

/-- A quotient rounded half-even is at most half a unit away from the exact one. -/
theorem halfEven_close (hden : 0 < den) : 2 * |quotient .halfEven num den * den - num| ≤ den := by
  have hdecomp := Int.mul_ediv_add_emod num den
  have hrest := Int.emod_nonneg num (b := den) (by omega)
  have hlt := Int.emod_lt_of_pos num (b := den) (by omega)
  have hcomm : (den : Int) * (num / den) = num / den * den := Int.mul_comm ..
  have hsucc : (num / den + 1) * (den : Int) = num / den * den + den := by ring
  have htwo (e : Int) (hlow : -(den : Int) ≤ 2 * e) (hhigh : 2 * e ≤ den) : 2 * |e| ≤ den := by
    rcases abs_cases e with ⟨he, -⟩ | ⟨he, -⟩ <;> rw [he] <;> omega
  unfold quotient
  dsimp only
  split
  · exact htwo _ (by omega) (by omega)
  · split
    · exact htwo _ (by omega) (by omega)
    · split
      · exact htwo _ (by omega) (by omega)
      · exact htwo _ (by omega) (by omega)

/-- A quotient rounded up is not below the exact one. -/
theorem le_up_quotient_mul (num : Int) (hden : 0 < den) : num ≤ quotient .up num den * den := by
  have hdecomp := Int.mul_ediv_add_emod num den
  have hrest := Int.emod_lt_of_pos num (b := den) (by omega)
  have hcomm : (den : Int) * (num / den) = num / den * den := Int.mul_comm ..
  have hsucc : (num / den + 1) * (den : Int) = num / den * den + den := by ring
  unfold quotient
  dsimp only
  split <;> omega

/-- A common factor does not change a quotient rounded half-even. -/
theorem halfEven_mul_mul (num : Int) (den : Nat) {k : Nat} (hk : 0 < k) :
    quotient .halfEven (num * k) (den * k) = quotient .halfEven num den := by
  have hpos : (0 : Int) < k := by omega
  have hden : ((den * k : Nat) : Int) = k * den := by rw [Int.natCast_mul, Int.mul_comm]
  have hdiv : num * k / ((den * k : Nat) : Int) = num / den := by
    rw [hden, Int.mul_comm num, Int.mul_ediv_mul_of_pos _ _ hpos]
  have hmod : num * k % ((den * k : Nat) : Int) = k * (num % den) := by
    rw [hden, Int.mul_comm num, Int.mul_emod_mul_of_pos _ _ hpos]
  have hbelow : 2 * (k * (num % den)) < ((den * k : Nat) : Int) ↔ 2 * (num % den) < den := by
    rw [hden, Int.mul_left_comm]
    exact Int.mul_lt_mul_left hpos
  have habove : ((den * k : Nat) : Int) < 2 * (k * (num % den)) ↔ (den : Int) < 2 * (num % den) := by
    rw [hden, Int.mul_left_comm]
    exact Int.mul_lt_mul_left hpos
  simp only [quotient, hdiv, hmod, hbelow, habove]

end Rounding

/-! ## Nearest decimals -/

namespace Decimal

variable {num : Int} {den : Nat}

/-- The mantissa of a quotient at some number of places. -/
def mantissaAt (num : Int) (den places : Nat) : Int :=
  Rounding.halfEven.quotient (num * tenTo places) den

theorem atPlaces?_eq_some {places : Nat} (h : (mantissaAt num den places).natAbs ≤ maxMantissa) :
    atPlaces? num den places = some (ofMantissa (mantissaAt num den places) places h) :=
  dif_pos h

/-- A quotient whose mantissa fits at some number of places is taken at so many places or more, as many
as there can be. -/
theorem nearestFrom?_of_fits {low : Nat} (hfits : (mantissaAt num den low).natAbs ≤ maxMantissa) :
    ∀ {high : Nat}, low ≤ high → ∃ places fits, low ≤ places ∧ places ≤ high ∧
      nearestFrom? num den high = some (ofMantissa (mantissaAt num den places) places fits) ∧
      (places = high ∨ maxMantissa < (mantissaAt num den (places + 1)).natAbs) := by
  intro high hlow
  induction high with
  | zero =>
    obtain rfl : low = 0 := by omega
    exact ⟨0, hfits, le_refl 0, le_refl 0, atPlaces?_eq_some hfits, .inl rfl⟩
  | succ high ih =>
    unfold nearestFrom?
    by_cases hhigh : (mantissaAt num den (high + 1)).natAbs ≤ maxMantissa
    · refine ⟨high + 1, hhigh, hlow, le_refl _, ?_, .inl rfl⟩
      rw [atPlaces?_eq_some hhigh]
      rfl
    · have hne : low ≠ high + 1 := fun heq => hhigh (heq ▸ hfits)
      obtain ⟨places, fits, hplaces, hle, heq, hmax⟩ := ih (by omega)
      refine ⟨places, fits, hplaces, by omega, ?_, ?_⟩
      · have hnone : atPlaces? num den (high + 1) = none := dif_neg hhigh
        rw [hnone, heq]
        rfl
      · rcases hmax with rfl | hmax
        · exact .inr (by omega)
        · exact .inr hmax

/-- Whatever is found has the mantissa of the quotient at some number of places. -/
theorem nearestFrom?_eq_some {high : Nat} {d : Decimal} (h : nearestFrom? num den high = some d) :
    ∃ places fits, d = ofMantissa (mantissaAt num den places) places fits := by
  have hat {places : Nat} (h : atPlaces? num den places = some d) :
      ∃ places fits, d = ofMantissa (mantissaAt num den places) places fits := by
    unfold atPlaces? at h
    dsimp only at h
    split at h
    · rename_i fits
      exact ⟨places, fits, (Option.some.inj h).symm⟩
    · cases h
  induction high with
  | zero => exact hat h
  | succ high ih =>
    unfold nearestFrom? at h
    rcases Option.or_eq_some_iff.mp h with h | ⟨-, h⟩
    · exact hat h
    · exact ih h

theorem nearest_eq_ok_iff {fault : ArithmeticFault} {d : Decimal} :
    nearest fault num den = .ok d ↔ nearest? num den = some d := by
  unfold nearest
  cases nearest? num den <;> simp

/-! ## Small numbers -/

theorem tenTo_12 : tenTo 12 = 1000000000000 := rfl

theorem tenTo_16 : tenTo 16 = 10000000000000000 := rfl

theorem tenTo_dvd_tenTo {j k : Nat} (h : j ≤ k) : (tenTo j : Int) ∣ tenTo k :=
  Int.natCast_dvd_natCast.mpr (Nat.pow_dvd_pow 10 h)

theorem unit_pos : 0 < unit := tenTo_pos maxPlaces

theorem unit_eq : unit = 10000000000000000000000000000 := rfl

/-- A trillion, in smallest units: numbers up to it have at least sixteen places. -/
def trillion : Nat := tenTo 12 * unit

/-- Whether a decimal has at most so many places. -/
def OnGrid (places : Nat) (a : Decimal) : Prop := (tenTo (maxPlaces - places) : Int) ∣ a.units

theorem onGrid_zero (places : Nat) : OnGrid places 0 := Int.dvd_zero _

theorem OnGrid.neg {places : Nat} {a : Decimal} (h : a.OnGrid places) : (-a).OnGrid places :=
  Int.dvd_neg.mpr h

/-- Whoever has few places has at most more. -/
theorem OnGrid.mono {few : Nat} {a : Decimal} (h : a.OnGrid few) (many : Nat) (hle : few ≤ many) :
    a.OnGrid many :=
  Int.dvd_trans (tenTo_dvd_tenTo (Nat.sub_le_sub_left hle maxPlaces)) h

theorem onGrid_roundTo (direction : Rounding) (places : Nat) (a : Decimal) :
    (a.roundTo direction places).OnGrid places := by
  unfold OnGrid roundTo
  split
  · exact Int.dvd_mul_left ..
  · rename_i hmany
    have hnone : maxPlaces - places = 0 := by omega
    rw [hnone]
    exact Int.one_dvd _

theorem representable_of_tenTo_dvd {shift : Nat} {u : Int} (hshift : shift ≤ maxPlaces)
    (hdvd : (tenTo shift : Int) ∣ u) (hle : u.natAbs ≤ maxMantissa * tenTo shift) : Representable u := by
  obtain ⟨m, rfl⟩ := hdvd
  refine ⟨shift, hshift, m, ?_, Int.mul_comm ..⟩
  rw [Int.natAbs_mul, Int.natAbs_natCast, Nat.mul_comm] at hle
  exact Nat.le_of_mul_le_mul_right hle (tenTo_pos shift)

/-- A count of units with at most sixteen places that is not too large is a decimal. -/
theorem representable_of_dvd {u : Int} (hdvd : (tenTo 12 : Int) ∣ u) (hle : u.natAbs ≤ 7 * trillion) :
    Representable u := by
  refine representable_of_tenTo_dvd (by decide) hdvd (hle.trans ?_)
  decide

/-! ## How close, and on which side -/

section Nearest

variable {fault : ArithmeticFault} {d : Decimal} {n : Nat} {g : Int}

theorem mantissaAt_fits {places : Nat} (hden : 0 < den)
    (h : num.natAbs * tenTo places ≤ maxMantissa * den) :
    (mantissaAt num den places).natAbs ≤ maxMantissa := by
  have hscaled : (num * tenTo places).natAbs ≤ maxMantissa * den := by
    rwa [Int.natAbs_mul, Int.natAbs_natCast]
  have hbound : ((maxMantissa * den : Nat) : Int) = maxMantissa * den := Int.natCast_mul ..
  have hbelow : mantissaAt num den places ≤ maxMantissa :=
    Rounding.quotient_le_of_le_mul hden (by omega)
  have habove : -(maxMantissa : Int) ≤ mantissaAt num den places :=
    Rounding.le_quotient_of_mul_le hden (by rw [Int.neg_mul]; omega)
  omega

/-- A quotient that fits without any places is a decimal. -/
theorem exists_nearest (fault : ArithmeticFault) (hden : 0 < den)
    (hfits : num.natAbs ≤ maxMantissa * den) : ∃ d, nearest fault num den = .ok d := by
  have hnone : (mantissaAt num den 0).natAbs ≤ maxMantissa :=
    mantissaAt_fits hden (by rwa [tenTo_zero, Nat.mul_one])
  obtain ⟨places, fits, -, -, heq, -⟩ := nearestFrom?_of_fits hnone (Nat.zero_le maxPlaces)
  exact ⟨_, nearest_eq_ok_iff.mpr heq⟩

/-- At whatever number of places, the mantissa stands for a count of units that is at most half of the
last place away from the quotient. -/
theorem mantissaAt_close (num : Int) {places : Nat} (hn : 0 < n) (hle : places ≤ maxPlaces) :
    2 * |mantissaAt num (n * unit) places * tenTo (maxPlaces - places) * n - num| ≤
      n * tenTo (maxPlaces - places) := by
  have hpos : (0 : Int) < tenTo places := Int.natCast_pos.mpr (tenTo_pos _)
  have hunit : unit = tenTo (maxPlaces - places) * tenTo places := by
    rw [← tenTo_add, Nat.sub_add_cancel hle]
    rfl
  have hclose : 2 * |mantissaAt num (n * unit) places * ((n * unit : Nat) : Int) - num * tenTo places| ≤
      ((n * unit : Nat) : Int) := Rounding.halfEven_close (Nat.mul_pos hn unit_pos)
  set q := mantissaAt num (n * unit) places
  have hscaled : q * ((n * unit : Nat) : Int) - num * tenTo places =
      (q * tenTo (maxPlaces - places) * n - num) * tenTo places := by
    rw [Int.natCast_mul, hunit, Int.natCast_mul]
    ring
  rw [hscaled, abs_mul, abs_of_pos hpos, Int.natCast_mul, hunit, Int.natCast_mul, ← Int.mul_assoc,
    ← Int.mul_assoc] at hclose
  exact Int.le_of_mul_le_mul_right hclose hpos

/-- A quotient whose mantissa does not fit at some number of places is large. -/
theorem large_of_not_fits {places : Nat} (hn : 0 < n) (hle : places ≤ maxPlaces)
    (hbig : maxMantissa < (mantissaAt num (n * unit) places).natAbs) :
    (2 * maxMantissa + 1) * (n * tenTo (maxPlaces - places)) ≤ 2 * |num| := by
  have hclose := mantissaAt_close num hn hle
  set q := mantissaAt num (n * unit) places
  set t := (tenTo (maxPlaces - places) : Int)
  have ht : 0 ≤ t * n := Int.mul_nonneg (Int.natCast_nonneg _) (Int.natCast_nonneg _)
  have hlarge : (maxMantissa + 1) * (t * n) ≤ |q * t * n| := by
    rw [Int.mul_assoc, abs_mul, abs_of_nonneg ht, Int.abs_eq_natAbs]
    exact Int.mul_le_mul_of_nonneg_right (by omega) ht
  have htriangle := abs_sub_abs_le_abs_sub (q * t * n) num
  linarith

/-- What is known of the decimal nearest to a quotient of a count of units by a whole number: how many
places it has at least, and that it is at most half of its last place away. Where it does not have all
places, so many were taken that this is also little compared to the number itself. -/
theorem nearest_places (h : nearest fault num (n * unit) = .ok d) (hn : 0 < n) {low : Nat}
    (hlow : low ≤ maxPlaces) (hfits : num.natAbs * tenTo low ≤ maxMantissa * (n * unit)) :
    ∃ places, low ≤ places ∧ places ≤ maxPlaces ∧ d.OnGrid places ∧
      2 * |d.units * n - num| ≤ n * tenTo (maxPlaces - places) ∧
      (places = maxPlaces ∨ 3 * unit * |d.units * n - num| ≤ 2 * |num|) := by
  obtain ⟨k, fits, hlow, hhigh, heq, hmax⟩ :=
    nearestFrom?_of_fits (mantissaAt_fits (Nat.mul_pos hn unit_pos) hfits) hlow
  obtain rfl := Option.some.inj ((nearest_eq_ok_iff.mp h).symm.trans heq)
  have hclose := mantissaAt_close num hn hhigh
  refine ⟨k, hlow, hhigh, Int.dvd_mul_left .., hclose, ?_⟩
  by_cases hall : k = maxPlaces
  · exact .inl hall
  -- at one place more the mantissa would not have fitted, and a place is ten of the next
  have hlarge := large_of_not_fits hn (show k + 1 ≤ maxPlaces by omega) (hmax.resolve_left hall)
  have hstep : (tenTo (maxPlaces - k) : Int) = tenTo (maxPlaces - (k + 1)) * 10 := by
    rw [show maxPlaces - k = maxPlaces - (k + 1) + 1 by omega, tenTo_add, Int.natCast_mul]
    rfl
  refine .inr ?_
  show 3 * (unit : Int) * |mantissaAt num (n * unit) k * tenTo (maxPlaces - k) * n - num| ≤ 2 * |num|
  set error := |mantissaAt num (n * unit) k * tenTo (maxPlaces - k) * n - num|
  have hnonneg : 0 ≤ error := abs_nonneg _
  rw [hstep, ← Int.mul_assoc] at hclose
  simp only [maxMantissa, unit_eq] at hlarge ⊢
  push_cast at hlarge ⊢
  linarith

/-- The decimal nearest to a quotient is at most half a smallest unit away from it, or little compared to
the number itself. -/
theorem nearest_close (h : nearest fault num (n * unit) = .ok d) (hn : 0 < n)
    (hfits : num.natAbs ≤ maxMantissa * (n * unit)) :
    2 * |d.units * n - num| ≤ n ∨ 3 * unit * |d.units * n - num| ≤ 2 * |num| := by
  obtain ⟨places, -, -, -, hhalf, hmax⟩ := nearest_places h hn (Nat.zero_le maxPlaces)
    (by rwa [tenTo_zero, Nat.mul_one])
  refine hmax.imp_left ?_
  rintro rfl
  rwa [Nat.sub_self, tenTo_zero, Int.natCast_one, Int.mul_one] at hhalf

/-- A quotient of a number of at most `c` is a decimal that is close to it. -/
theorem exists_nearest_close (fault : ArithmeticFault) {c : Nat} (hn : 0 < n) (hnum : |num| ≤ c * unit)
    (hc : c ≤ maxMantissa * n) :
    ∃ d, nearest fault num (n * unit) = .ok d ∧ |d.units * n - num| ≤ n + c := by
  have hfits : num.natAbs ≤ maxMantissa * (n * unit) := by
    have hscaled := Nat.mul_le_mul_right unit hc
    rw [← Nat.mul_assoc]
    rw [Int.abs_eq_natAbs] at hnum
    exact (Int.ofNat_le.mp (by rwa [Int.natCast_mul])).trans hscaled
  obtain ⟨d, hd⟩ := exists_nearest fault (Nat.mul_pos hn unit_pos) hfits
  refine ⟨d, hd, ?_⟩
  have hnonneg := abs_nonneg (d.units * n - num)
  rcases nearest_close hd hn hfits with hhalf | hlittle
  · omega
  · simp only [unit_eq] at hnum hlittle
    omega

/-- Between two numbers on a grid lies at least one step of it. -/
theorem add_step_le {step u : Int} (hu : step ∣ u) (hg : step ∣ g) (hlt : u < g) : u + step ≤ g := by
  have := Int.le_of_dvd (by omega) (Int.dvd_sub hg hu)
  omega

/-- A quotient that fits at so many places does not go beyond a number with as many that the exact one does
not go beyond, since it has as many or more itself. -/
theorem nearest_sides_at {low : Nat} (h : nearest fault num (n * unit) = .ok d) (hn : 0 < n)
    (hlow : low ≤ maxPlaces) (hfits : num.natAbs * tenTo low ≤ maxMantissa * (n * unit))
    (hg : (tenTo (maxPlaces - low) : Int) ∣ g) :
    (g * n ≤ num → g ≤ d.units) ∧ (num ≤ g * n → d.units ≤ g) := by
  obtain ⟨k, hlow, hhigh, hd, hhalf, -⟩ := nearest_places h hn hlow hfits
  have hg : (tenTo (maxPlaces - k) : Int) ∣ g :=
    Int.dvd_trans (tenTo_dvd_tenTo (Nat.sub_le_sub_left hlow maxPlaces)) hg
  have hpos : 0 < n * (tenTo (maxPlaces - k) : Int) :=
    Int.mul_pos (by omega) (Int.natCast_pos.mpr (tenTo_pos _))
  have hbelow := neg_abs_le (d.units * n - num)
  have habove := le_abs_self (d.units * n - num)
  constructor
  · intro hle
    by_contra hlt
    have hstep := Int.mul_le_mul_of_nonneg_right (add_step_le hd hg (by omega)) (Int.natCast_nonneg n)
    rw [Int.add_mul, Int.mul_comm _ (n : Int)] at hstep
    linarith
  · intro hle
    by_contra hlt
    have hstep := Int.mul_le_mul_of_nonneg_right (add_step_le hg hd (by omega)) (Int.natCast_nonneg n)
    rw [Int.add_mul, Int.mul_comm _ (n : Int)] at hstep
    linarith

/-- A small quotient fits at sixteen places. -/
theorem nearest_sides (h : nearest fault num (n * unit) = .ok d) (hn : 0 < n)
    (hsmall : num.natAbs ≤ trillion) (hg : (tenTo 12 : Int) ∣ g) :
    (g * n ≤ num → g ≤ d.units) ∧ (num ≤ g * n → d.units ≤ g) := by
  have hfits : num.natAbs * tenTo 16 ≤ maxMantissa * (n * unit) := by
    have := Nat.le_mul_of_pos_left unit hn
    simp only [trillion, maxMantissa, unit_eq, tenTo_12, tenTo_16] at *
    omega
  exact nearest_sides_at h hn (by decide) hfits hg

/-- A quotient that fits at so many places still does when it has been rounded. -/
theorem nearest_fits {low : Nat} (h : nearest fault num (n * unit) = .ok d) (hn : 0 < n)
    (hlow : low ≤ maxPlaces) (hfits : num.natAbs * tenTo low ≤ maxMantissa * (n * unit)) :
    d.units.natAbs * tenTo low ≤ maxMantissa * unit := by
  have hunit : unit = tenTo (maxPlaces - low) * tenTo low := by
    rw [← tenTo_add, Nat.sub_add_cancel hlow]
    rfl
  have hgrid : (tenTo (maxPlaces - low) : Int) ∣ ((maxMantissa * tenTo (maxPlaces - low) : Nat) : Int) :=
    Int.natCast_dvd_natCast.mpr (Nat.dvd_mul_left ..)
  have hnum : num.natAbs ≤ maxMantissa * tenTo (maxPlaces - low) * n := by
    refine Nat.le_of_mul_le_mul_right (hfits.trans (le_of_eq ?_)) (tenTo_pos low)
    rw [hunit]
    ring
  have hbound : (num.natAbs : Int) ≤ ((maxMantissa * tenTo (maxPlaces - low) : Nat) : Int) * n := by
    exact_mod_cast hnum
  have habove := (nearest_sides_at h hn hlow hfits hgrid).2 (by omega)
  have hbelow := (nearest_sides_at h hn hlow hfits (Int.dvd_neg.mpr hgrid)).1 (by
    rw [Int.neg_mul]
    omega)
  rw [hunit, ← Nat.mul_assoc]
  exact Nat.mul_le_mul_right _ (by omega)

/-- A small quotient of a number with sixteen places by a small whole number is on the same side of
every number with sixteen places as the exact one. -/
theorem nearest_sides_iff (h : nearest fault num (n * unit) = .ok d) (hn : 0 < n)
    (hn_small : n ≤ tenTo 12) (hnum : (tenTo 12 : Int) ∣ num) (hsmall : num.natAbs ≤ trillion)
    (hg : (tenTo 12 : Int) ∣ g) :
    (g ≤ d.units ↔ g * n ≤ num) ∧ (d.units ≤ g ↔ num ≤ g * n) := by
  obtain ⟨hle, hge⟩ := nearest_sides h hn hsmall hg
  -- the exact quotient is a step away from a number that it is not equal to, the rounded one is less
  have herror : |d.units * n - num| < tenTo 12 := by
    have hfits : num.natAbs ≤ maxMantissa * (n * unit) := by
      have := Nat.le_mul_of_pos_left unit hn
      simp only [trillion, maxMantissa, unit_eq, tenTo_12] at *
      omega
    have hnonneg := abs_nonneg (d.units * n - num)
    rcases nearest_close h hn hfits with hhalf | hlittle
    · simp only [tenTo_12] at hn_small ⊢
      omega
    · rw [Int.abs_eq_natAbs num] at hlittle
      simp only [trillion, unit_eq, tenTo_12] at hlittle hsmall ⊢
      omega
  have hbelow := neg_abs_le (d.units * n - num)
  have habove := le_abs_self (d.units * n - num)
  have hgn : (tenTo 12 : Int) ∣ g * n := Int.dvd_mul_of_dvd_left hg
  refine ⟨⟨fun hd => ?_, hle⟩, fun hd => ?_, hge⟩
  · by_contra hlt
    have hscaled := Int.mul_le_mul_of_nonneg_right hd (Int.natCast_nonneg n)
    have := add_step_le hnum hgn (by omega)
    omega
  · by_contra hlt
    have hscaled := Int.mul_le_mul_of_nonneg_right hd (Int.natCast_nonneg n)
    have := add_step_le hgn hnum (by omega)
    omega

end Nearest

section RoundTo

variable {places : Nat} {a : Decimal} {g : Int}

/-- A number on the grid is at most the number rounded down to the grid if it is at most the number. -/
theorem le_roundTo_down_iff (hg : (tenTo (maxPlaces - places) : Int) ∣ g) :
    g ≤ (a.roundTo .down places).units ↔ g ≤ a.units := by
  unfold roundTo
  split
  · have hpos : (0 : Int) < tenTo (maxPlaces - places) := Int.natCast_pos.mpr (tenTo_pos _)
    obtain ⟨k, rfl⟩ := hg
    rw [Int.mul_comm _ k, Int.mul_le_mul_right hpos]
    exact Int.le_ediv_iff_mul_le hpos
  · rfl

theorem roundTo_up_le_iff (hg : (tenTo (maxPlaces - places) : Int) ∣ g) :
    (a.roundTo .up places).units ≤ g ↔ a.units ≤ g := by
  unfold roundTo
  split
  · have hpos : (0 : Int) < tenTo (maxPlaces - places) := Int.natCast_pos.mpr (tenTo_pos _)
    obtain ⟨k, rfl⟩ := hg
    rw [Int.mul_comm _ k, Int.mul_le_mul_right hpos]
    refine ⟨fun hle => ?_, Rounding.quotient_le_of_le_mul (tenTo_pos _)⟩
    exact (Rounding.le_up_quotient_mul a.units (tenTo_pos _)).trans
      (Int.mul_le_mul_of_nonneg_right hle hpos.le)
  · rfl

theorem round_close (places : Nat) (a : Decimal) :
    2 * |(a.round places).units - a.units| ≤ tenTo (maxPlaces - places) := by
  unfold round roundTo
  split
  · exact Rounding.halfEven_close (tenTo_pos _)
  · rw [Int.sub_self, abs_zero]
    exact Int.natCast_nonneg _

/-- A number that is less than half a step away from one on the grid is rounded to that. -/
theorem round_eq_of_close {b : Decimal} (hb : b.OnGrid places)
    (hclose : 2 * |a.units - b.units| < tenTo (maxPlaces - places)) : a.round places = b := by
  have hround := round_close places a
  have htriangle := abs_sub_le (a.round places).units a.units b.units
  have hgrid := Int.dvd_sub (onGrid_roundTo .halfEven places a) hb
  exact ext_units (Int.sub_eq_zero.mp (Int.eq_zero_of_abs_lt_dvd hgrid (by
    show |(a.round places).units - b.units| < _
    omega)))

end RoundTo

/-! ## Whole factors -/

/-- Whether a decimal is a whole number above zero. -/
def IsWhole (a : Decimal) : Prop := ∃ n : Nat, 0 < n ∧ a.units = n * unit

theorem isWhole_iff (a : Decimal) : a.IsWhole ↔ 0 < a.units ∧ (unit : Int) ∣ a.units := by
  have hunit : (0 : Int) < unit := Int.natCast_pos.mpr unit_pos
  constructor
  · rintro ⟨n, hn, hunits⟩
    rw [hunits]
    exact ⟨Int.mul_pos (Int.natCast_pos.mpr hn) hunit, Int.dvd_mul_left _ _⟩
  · rintro ⟨hpos, q, hq⟩
    rw [hq] at hpos
    have hqpos : 0 < q := Int.pos_of_mul_pos_right hpos hunit
    exact ⟨q.toNat, by omega, by rw [hq, Int.toNat_of_nonneg hqpos.le, Int.mul_comm]⟩

instance (a : Decimal) : Decidable a.IsWhole := decidable_of_iff _ (isWhole_iff a).symm

theorem nearestFrom?_mul_unit (num : Int) (den high : Nat) :
    nearestFrom? (num * unit) (den * unit) high = nearestFrom? num den high := by
  have hat (places : Nat) : atPlaces? (num * unit) (den * unit) places = atPlaces? num den places := by
    have hcomm : num * unit * tenTo places = num * tenTo places * unit := by ring
    simp only [atPlaces?, hcomm, Rounding.halfEven_mul_mul _ _ unit_pos]
  induction high with
  | zero => exact hat 0
  | succ high ih => rw [nearestFrom?, nearestFrom?, hat, ih]

theorem mul_of_units {a b : Decimal} {n : Nat} (hb : b.units = n * unit) :
    a.mul b = nearest .multiplicationOverflow (a.units * n) unit := by
  unfold mul nearest nearest?
  rw [hb, ← Int.mul_assoc, nearestFrom?_mul_unit]

/-- A product with a whole number is exact, if it is a decimal. -/
theorem mul_eq_ok {a b : Decimal} {n : Nat} (hb : b.units = n * unit)
    (hfits : Representable (a.units * n)) : a.mul b = .ok ⟨a.units * n, hfits⟩ := by
  rw [mul_of_units hb, nearest_eq_ok_iff]
  exact nearest?_of_representable hfits

theorem div_of_units {a b : Decimal} {n : Nat} (hb : b.units = n * unit) (hn : 0 < n) :
    a.div b = nearest .divisionOverflow a.units (n * unit) := by
  have hpos : 0 < n * unit := Nat.mul_pos hn unit_pos
  have hunits : b.units = ((n * unit : Nat) : Int) := by rw [hb, Int.natCast_mul]
  have hne : b ≠ 0 := by
    intro hzero
    rw [eq_zero_iff, hunits] at hzero
    omega
  unfold div
  rw [if_neg hne, hunits, Int.natAbs_natCast, Int.sign_eq_one_of_pos (by omega), Int.mul_one]

theorem representable_whole {n : Nat} (hn : n ≤ maxMantissa) : Representable (n * unit) :=
  ⟨maxPlaces, le_refl _, n, by rwa [Int.natAbs_natCast], rfl⟩

/-- A product of whole numbers is whole; it is never rounded, only too large. -/
theorem IsWhole.mul {a b c : Decimal} (ha : a.IsWhole) (hb : b.IsWhole) (h : a.mul b = .ok c) :
    c.IsWhole := by
  obtain ⟨m, hm, ha⟩ := ha
  obtain ⟨n, hn, hb⟩ := hb
  have hproduct : a.units * n = (m * n : Nat) * unit := by
    rw [ha, Int.natCast_mul]
    ring
  rw [mul_of_units hb, nearest_eq_ok_iff, hproduct] at h
  have hfits : m * n ≤ maxMantissa := by
    obtain ⟨places, fits, -⟩ := nearestFrom?_eq_some h
    have hmantissa : mantissaAt ((m * n : Nat) * unit) unit places = (m * n * tenTo places : Nat) := by
      have hcomm : ((m * n : Nat) : Int) * unit * tenTo places =
      (m * n * tenTo places : Nat) * unit := by
        rw [Int.natCast_mul (m * n)]
        ring
      rw [mantissaAt, hcomm, Rounding.quotient_mul_self _ _ unit_pos]
    rw [hmantissa, Int.natAbs_natCast] at fits
    exact (Nat.le_mul_of_pos_right _ (tenTo_pos places)).trans fits
  rw [nearest?_of_representable (representable_whole hfits)] at h
  exact ⟨m * n, Nat.mul_pos hm hn, by rw [← Option.some.inj h]⟩

/-- The decimal nearest to a quotient that is not negative is not negative. -/
theorem nearest_nonneg {fault : ArithmeticFault} {d : Decimal} (h : nearest fault num den = .ok d)
    (hden : 0 < den) (hnum : 0 ≤ num) : 0 ≤ d.units := by
  obtain ⟨places, fits, rfl⟩ := nearestFrom?_eq_some (nearest_eq_ok_iff.mp h)
  have hmantissa : 0 ≤ mantissaAt num den places :=
    Rounding.le_quotient_of_mul_le hden (by
      rw [Int.zero_mul]
      exact Int.mul_nonneg hnum (by omega))
  exact Int.mul_nonneg hmantissa (by omega)

theorem roundTo_nonneg (direction : Rounding) (places : Nat) {a : Decimal} (h : 0 ≤ a.units) :
    0 ≤ (a.roundTo direction places).units := by
  unfold roundTo
  split
  · exact Int.mul_nonneg (Rounding.le_quotient_of_mul_le (tenTo_pos _) (by simpa using h)) (by omega)
  · exact h

/-! ## Arithmetic on a grid -/

instance (places : Nat) (a : Decimal) : Decidable (a.OnGrid places) :=
  inferInstanceAs (Decidable ((tenTo (maxPlaces - places) : Int) ∣ a.units))

/-- A count of units on a grid stays there when it is made to fit: at fewer places than the grid has it
is on a coarser one, and at as many or more nothing is rounded. -/
theorem onGrid_nearest {fault : ArithmeticFault} {d : Decimal} {places : Nat} {u : Int}
    (hgrid : (tenTo (maxPlaces - places) : Int) ∣ u) (h : nearest fault u unit = .ok d) :
    d.OnGrid places := by
  obtain ⟨taken, fits, rfl⟩ := nearestFrom?_eq_some (nearest_eq_ok_iff.mp h)
  rcases Nat.le_total taken places with hle | hle
  · have htaken : (ofMantissa (mantissaAt u unit taken) taken fits).OnGrid taken :=
      Int.dvd_mul_left ..
    exact htaken.mono places hle
  · by_cases hmany : maxPlaces ≤ places
    · unfold OnGrid
      rw [Nat.sub_eq_zero_of_le hmany]
      exact Int.one_dvd _
    · obtain ⟨k, rfl⟩ := hgrid
      have hexact : mantissaAt (tenTo (maxPlaces - places) * k) unit taken =
          k * tenTo (taken - places) := by
        have hsum : tenTo (maxPlaces - places) * tenTo taken = tenTo (taken - places) * unit := by
          rw [unit, ← tenTo_add, ← tenTo_add]
          congr 1
          omega
        have hscaled : (tenTo (maxPlaces - places) : Int) * k * tenTo taken =
            k * tenTo (taken - places) * unit := by
          rw [Int.mul_right_comm, ← Int.natCast_mul, hsum, Int.natCast_mul]
          ring
        rw [mantissaAt, hscaled, Rounding.quotient_mul_self _ _ unit_pos]
      show (tenTo (maxPlaces - places) : Int) ∣ mantissaAt _ unit taken * tenTo (maxPlaces - taken)
      have hsplit : tenTo (taken - places) * tenTo (maxPlaces - taken) =
          tenTo (maxPlaces - places) * tenTo (taken - places + (maxPlaces - taken) -
            (maxPlaces - places)) := by
        rw [← tenTo_add, ← tenTo_add]
        congr 1
        omega
      rw [hexact, Int.mul_assoc, ← Int.natCast_mul, hsplit, Int.natCast_mul]
      exact Int.dvd_mul_of_dvd_right (Int.dvd_mul_right ..)

section OnGrid

variable {places : Nat} {a b c : Decimal}

theorem OnGrid.add (ha : a.OnGrid places) (hb : b.OnGrid places) (h : a.add b = .ok c) :
    c.OnGrid places := onGrid_nearest (Int.dvd_add ha hb) h

theorem OnGrid.sub (ha : a.OnGrid places) (hb : b.OnGrid places) (h : a.sub b = .ok c) :
    c.OnGrid places := onGrid_nearest (Int.dvd_sub ha hb) h

theorem OnGrid.min (ha : a.OnGrid places) (hb : b.OnGrid places) : (a.min b).OnGrid places := by
  unfold Decimal.min
  split
  · exact ha
  · exact hb

theorem OnGrid.max (ha : a.OnGrid places) (hb : b.OnGrid places) : (a.max b).OnGrid places := by
  unfold Decimal.max
  split
  · exact hb
  · exact ha

theorem onGrid_sum {terms : List Decimal} (hterms : ∀ t ∈ terms, t.OnGrid places)
    (h : sum terms = .ok c) : c.OnGrid places :=
  foldlM_keeps (fun _ _ _ ht hacc hstep => hacc.add (hterms _ ht) hstep) (onGrid_zero places) h

/-- Rounding to other places leaves a number on its grid. -/
theorem OnGrid.roundTo (ha : a.OnGrid places) (direction : Rounding) (others : Nat) :
    (a.roundTo direction others).OnGrid places := by
  rcases Nat.le_total others places with hle | hle
  · exact (onGrid_roundTo direction others a).mono places hle
  · have hfine := ha.mono others hle
    have hsame : a.roundTo direction others = a := by
      unfold Decimal.roundTo
      split
      · obtain ⟨k, hk⟩ := hfine
        refine ext_units ?_
        show direction.quotient a.units _ * _ = _
        rw [hk, Int.mul_comm _ k, Rounding.quotient_mul_self _ _ (tenTo_pos _)]
      · rfl
    rwa [hsame]

theorem OnGrid.mul_whole {n : Nat} (ha : a.OnGrid places) (hb : b.units = n * unit)
    (h : a.mul b = .ok c) : c.OnGrid places := by
  rw [mul_of_units hb] at h
  exact onGrid_nearest (Int.dvd_mul_of_dvd_left ha) h

/-- Dividing by one leaves a number on its grid. -/
theorem OnGrid.div_one (ha : a.OnGrid places) (h : a.div 1 = .ok c) : c.OnGrid places := by
  have hone : (1 : Decimal).units = (1 : Nat) * unit := rfl
  rw [div_of_units hone Nat.one_pos, Nat.one_mul] at h
  exact onGrid_nearest ha h

end OnGrid

end Decimal

/-! ## Splits in whole numbers -/

namespace SplitRatio

open Decimal

/-- Whether a ratio is one of whole numbers. -/
def IsWhole (r : SplitRatio) : Prop := r.sharesOut.IsWhole ∧ r.sharesIn.IsWhole

instance (r : SplitRatio) : Decidable r.IsWhole :=
  inferInstanceAs (Decidable (r.sharesOut.IsWhole ∧ r.sharesIn.IsWhole))

theorem IsWhole.compound {r s t : SplitRatio} (hr : r.IsWhole) (hs : s.IsWhole)
    (h : r.compound s = .ok t) : t.IsWhole := by
  simp only [SplitRatio.compound, bind_eq_ok_iff, pure_eq_ok_iff] at h
  obtain ⟨sharesOut, hout, sharesIn, hin, rfl⟩ := h
  exact ⟨hr.1.mul hs.1 hout, hr.2.mul hs.2 hin⟩

variable {r : SplitRatio} {shares x : Decimal} {m n : Nat}

theorem revert_nonneg (hr : r.IsWhole) (h : r.revert shares = .ok x) (hshares : 0 ≤ shares.units) :
    0 ≤ x.units := by
  obtain ⟨⟨m, hm, hout⟩, n, -, hin⟩ := hr
  simp only [SplitRatio.revert, bind_eq_ok_iff] at h
  obtain ⟨product, hmul, hdiv⟩ := h
  rw [mul_of_units hin] at hmul
  rw [div_of_units hout hm] at hdiv
  exact nearest_nonneg hdiv (Nat.mul_pos hm unit_pos)
    (nearest_nonneg hmul unit_pos (Int.mul_nonneg hshares (by omega)))

/-- The ratio that takes back what a ratio does. -/
def inverse (r : SplitRatio) : SplitRatio := ⟨r.sharesIn, r.sharesOut⟩

/-- A product with whole shares is exact, so that applying a ratio rounds once only. -/
theorem apply_eq_nearest (hout : r.sharesOut.units = m * unit) (hin : r.sharesIn.units = n * unit)
    (hn : 0 < n) (hfits : Representable (shares.units * m)) :
    r.apply shares = nearest .divisionOverflow (shares.units * m) (n * unit) := by
  rw [SplitRatio.apply, mul_eq_ok hout hfits]
  exact div_of_units hin hn

/-- Shares that a number on a grid backs come from no more than that before the splits, also when what they
come from is rounded up to the grid. -/
theorem exists_revert_up_le {places low : Nat} (hout : r.sharesOut.units = m * unit)
    (hin : r.sharesIn.units = n * unit) (hm : 0 < m) (hplaces : places ≤ low) (hlow : low ≤ maxPlaces)
    (hfits : (shares.units * n).natAbs * tenTo low ≤ maxMantissa * unit) :
    ∃ x, r.revert shares = .ok x ∧ ∀ bound : Int, (tenTo (maxPlaces - places) : Int) ∣ bound →
      shares.units * n ≤ bound * m → (x.roundTo .up places).units ≤ bound := by
  have hone : (shares.units * n).natAbs * tenTo low ≤ maxMantissa * (1 * unit) := by rwa [Nat.one_mul]
  obtain ⟨z, hz⟩ := exists_nearest .multiplicationOverflow (Nat.mul_pos Nat.one_pos unit_pos)
    ((Nat.le_mul_of_pos_right _ (tenTo_pos low)).trans hone)
  have hzfits := nearest_fits hz Nat.one_pos hlow hone
  have hmfits : z.units.natAbs * tenTo low ≤ maxMantissa * (m * unit) :=
    hzfits.trans (Nat.mul_le_mul_left _ (Nat.le_mul_of_pos_left unit hm))
  obtain ⟨x, hx⟩ := exists_nearest .divisionOverflow (Nat.mul_pos hm unit_pos)
    ((Nat.le_mul_of_pos_right _ (tenTo_pos low)).trans hmfits)
  have hmul : shares.mul r.sharesIn = .ok z := by rw [mul_of_units hin, ← hz, Nat.one_mul]
  refine ⟨x, ?_, fun bound hbound hback => (roundTo_up_le_iff hbound).mpr ?_⟩
  · rw [SplitRatio.revert, hmul, ← hx]
    exact div_of_units hout hm
  · have hfine : (tenTo (maxPlaces - low) : Int) ∣ bound :=
      Int.dvd_trans (tenTo_dvd_tenTo (Nat.sub_le_sub_left hplaces maxPlaces)) hbound
    -- neither the product nor the quotient goes beyond what backs the shares
    have hproduct := (nearest_sides_at hz Nat.one_pos hlow hone
      (Int.dvd_mul_of_dvd_left hfine : _ ∣ bound * m)).2 (by rwa [Int.natCast_one, Int.mul_one])
    exact (nearest_sides_at hx hm hlow hmfits hfine).2 hproduct

/-- The shares before splits that come to some shares after them, rounded up to a grid, are no more than
any number on the grid that backs them. -/
theorem revert_up_le {places : Nat} {bound : Int} (hout : r.sharesOut.units = m * unit)
    (hin : r.sharesIn.units = n * unit) (hm : 0 < m) (hshares : 0 ≤ shares.units)
    (hle : shares.units * n ≤ trillion)
    (hplaces : places ≤ 16) (hbound : (tenTo (maxPlaces - places) : Int) ∣ bound)
    (hback : shares.units * n ≤ bound * m) (h : r.revert shares = .ok x) :
    (x.roundTo .up places).units ≤ bound := by
  have hnonneg : 0 ≤ shares.units * n := Int.mul_nonneg hshares (by omega)
  have hfits : (shares.units * n).natAbs * tenTo 16 ≤ maxMantissa * unit := by
    simp only [trillion, maxMantissa, unit_eq, tenTo_12, tenTo_16] at *
    omega
  obtain ⟨y, hy, hle⟩ := exists_revert_up_le hout hin hm hplaces (by decide) hfits
  obtain rfl := Except.ok.inj (hy.symm.trans h)
  exact hle bound hbound hback

end SplitRatio

end Lotbook
