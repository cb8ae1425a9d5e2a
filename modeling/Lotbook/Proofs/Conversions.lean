/-
# Lotbook.Proofs.Conversions -- share counts carried across splits and back

Converting rounds more than once: the product and the quotient half-even to as many places as fit, and
the outcome in a direction of its own to as many places as are kept. For ratios of whole numbers and
counts that are not too large this costs nothing. What covers a count and what a count covers agree with
the exact ratio on every comparison (`SplitHistory.covered_covering_adjoint`), and what is applied is found
again when it is reverted, at the places that shares can have (`SplitHistory.revert_apply_cancel`).
-/
import Lotbook.Proofs.Edits
import Lotbook.Proofs.Grids
import Lotbook.Split.History
import Mathlib.Algebra.BigOperators.Group.List.Basic
import Mathlib.Algebra.Order.BigOperators.GroupWithZero.List

namespace Lotbook

open Decimal

/-! ## Ratios in whole numbers -/

namespace Decimal

/-- The whole number that a decimal is, where it is one. -/
def wholePart (a : Decimal) : Nat := (a.units / unit).toNat

theorem IsWhole.units_eq {a : Decimal} (ha : a.IsWhole) :
    0 < a.wholePart ∧ a.units = a.wholePart * unit := by
  obtain ⟨n, hn, hunits⟩ := ha
  have hpart : a.wholePart = n := by
    rw [wholePart, hunits, Int.mul_ediv_cancel _ (Int.natCast_pos.mpr unit_pos).ne', Int.toNat_natCast]
  rw [hpart]
  exact ⟨hn, hunits⟩

theorem mul_whole_eq_ok {a b : Decimal} {m n : Nat} (ha : a.units = m * unit) (hb : b.units = n * unit)
    (hfits : m * n ≤ maxMantissa) : ∃ c, a.mul b = .ok c ∧ c.units = (m * n : Nat) * unit := by
  have hproduct : a.units * n = (m * n : Nat) * unit := by
    rw [ha, Int.natCast_mul]
    ring
  exact ⟨_, mul_eq_ok hb (hproduct ▸ representable_whole hfits), hproduct⟩

theorem tenTo_7 : tenTo 7 = 10000000 := rfl

theorem tenTo_9 : tenTo 9 = 1000000000 := rfl

theorem tenTo_18 : tenTo 18 = 1000000000000000000 := rfl

theorem tenTo_20 : tenTo 20 = 100000000000000000000 := rfl

end Decimal

namespace SplitRatio

variable {r : SplitRatio} {shares : Decimal} {m n : Nat}

theorem eq_of_isIdentity (hout : r.sharesOut.units = m * unit) (hin : r.sharesIn.units = n * unit)
    (h : r.isIdentity = true) : m = n := by
  have heq : r.sharesOut = r.sharesIn := of_decide_eq_true h
  rw [heq, hin] at hout
  exact (Int.ofNat_inj.mp (Int.eq_of_mul_eq_mul_right (Int.natCast_pos.mpr unit_pos).ne' hout)).symm

/-- Compounding whole splits is exact as long as the products fit: no partial product is larger. -/
theorem foldlM_compound_whole {splits : List StockSplit} (hwhole : ∀ split ∈ splits, split.ratio.IsWhole)
    (hout : r.sharesOut.units = m * unit) (hin : r.sharesIn.units = n * unit)
    (hm : m * (splits.map fun split => split.ratio.sharesOut.wholePart).prod ≤ maxMantissa)
    (hn : n * (splits.map fun split => split.ratio.sharesIn.wholePart).prod ≤ maxMantissa) :
    ∃ r', splits.foldlM (fun ratio split => ratio.compound split.ratio) r = .ok r' ∧
      r'.sharesOut.units =
        (m * (splits.map fun split => split.ratio.sharesOut.wholePart).prod : Nat) * unit ∧
      r'.sharesIn.units =
        (n * (splits.map fun split => split.ratio.sharesIn.wholePart).prod : Nat) * unit := by
  induction splits generalizing r m n with
  | nil => exact ⟨r, rfl, by simpa using hout, by simpa using hin⟩
  | cons split splits ih =>
    obtain ⟨hsplit, hsplits⟩ := List.forall_mem_cons.mp hwhole
    obtain ⟨houtpos, houtunits⟩ := hsplit.1.units_eq
    obtain ⟨hinpos, hinunits⟩ := hsplit.2.units_eq
    have hpos (part : StockSplit → Nat) (hpart : ∀ split ∈ splits, 0 < part split) :
        0 < (splits.map part).prod := List.prod_pos (by simpa using hpart)
    have hm_le := Nat.le_mul_of_pos_right (m * split.ratio.sharesOut.wholePart)
      (hpos (fun split => split.ratio.sharesOut.wholePart) fun x hx => (hsplits x hx).1.units_eq.1)
    have hn_le := Nat.le_mul_of_pos_right (n * split.ratio.sharesIn.wholePart)
      (hpos (fun split => split.ratio.sharesIn.wholePart) fun x hx => (hsplits x hx).2.units_eq.1)
    simp only [List.map_cons, List.prod_cons, ← Nat.mul_assoc] at hm hn ⊢
    obtain ⟨sharesOut, hmulOut, hunitsOut⟩ := mul_whole_eq_ok hout houtunits (hm_le.trans hm)
    obtain ⟨sharesIn, hmulIn, hunitsIn⟩ := mul_whole_eq_ok hin hinunits (hn_le.trans hn)
    obtain ⟨r', hr', hresult⟩ := ih hsplits (r := ⟨sharesOut, sharesIn⟩) hunitsOut hunitsIn hm hn
    refine ⟨r', foldlM_cons_ok ?_ hr', hresult⟩
    rw [SplitRatio.compound, hmulOut, hmulIn]
    rfl

/-- What shares come to is on the same side of every number with sixteen places as what they come to
exactly, so that it does not matter that it is rounded before it is rounded to a grid. -/
theorem apply_sides (hout : r.sharesOut.units = m * unit) (hin : r.sharesIn.units = n * unit)
    (hn : 0 < n) (hn_small : n ≤ tenTo 12) (hgrid : shares.OnGrid 16)
    (hle : shares.units.natAbs * m ≤ trillion) :
    ∃ x, r.apply shares = .ok x ∧ ∀ g, (tenTo 12 : Int) ∣ g →
      (g ≤ x.units ↔ g * n ≤ shares.units * m) ∧ (x.units ≤ g ↔ shares.units * m ≤ g * n) := by
  have hnum : (tenTo 12 : Int) ∣ shares.units * m := Int.dvd_mul_of_dvd_left hgrid
  have hsmall : (shares.units * m).natAbs ≤ trillion := by rwa [Int.natAbs_mul, Int.natAbs_natCast]
  have hfits : (shares.units * m).natAbs ≤ maxMantissa * (n * unit) :=
    hsmall.trans ((by decide : trillion ≤ maxMantissa * unit).trans
      (Nat.mul_le_mul_left _ (Nat.le_mul_of_pos_left unit hn)))
  obtain ⟨x, hx⟩ := exists_nearest .divisionOverflow (Nat.mul_pos hn unit_pos) hfits
  refine ⟨x, ?_, fun g hg => nearest_sides_iff hx hn hn_small hnum hsmall hg⟩
  rw [apply_eq_nearest hout hin hn (representable_of_dvd hnum (by omega)), hx]

/-- What a small number of shares backs, rounded down to sixteen places, is small and no more than it backs
exactly. -/
theorem exists_apply_down (hout : r.sharesOut.units = m * unit) (hin : r.sharesIn.units = n * unit)
    (hn : 0 < n) (hn_small : n ≤ tenTo 12) (hgrid : shares.OnGrid 16)
    (hle : shares.units.natAbs * m ≤ trillion) :
    ∃ x, r.apply shares = .ok x ∧ (x.roundTo .down 16).units.natAbs ≤ trillion ∧
      (x.roundTo .down 16).units * n ≤ shares.units * m := by
  obtain ⟨x, hx, hsides⟩ := apply_sides hout hin hn hn_small hgrid hle
  have hdown : (x.roundTo .down 16).OnGrid 16 := onGrid_roundTo ..
  have hbelow : (x.roundTo .down 16).units ≤ x.units := (le_roundTo_down_iff hdown).mp (Int.le_refl _)
  have htrillion : (tenTo 12 : Int) ∣ trillion := Int.natCast_dvd_natCast.mpr (Nat.dvd_mul_right ..)
  have hexact : |shares.units * m| ≤ trillion := by
    rw [Int.abs_eq_natAbs, Int.natAbs_mul, Int.natAbs_natCast]
    exact Int.ofNat_le.mpr hle
  obtain ⟨hlow, hhigh⟩ := abs_le.mp hexact
  have hscale : (trillion : Int) ≤ trillion * n := le_mul_of_one_le_right (by decide) (by omega)
  have habove : x.units ≤ trillion := (hsides _ htrillion).2.mpr (by omega)
  have hover : -(trillion : Int) ≤ (x.roundTo .down 16).units := by
    have hneg := Int.dvd_neg.mpr htrillion
    refine (le_roundTo_down_iff hneg).mpr ((hsides _ hneg).1.mpr ?_)
    rw [Int.neg_mul]
    omega
  exact ⟨x, hx, by omega, (hsides _ hdown).1.mp hbelow⟩

/-- Applying a ratio rounds once, so that the outcome is close to the exact quotient. -/
theorem exists_apply_close {c : Nat} (hout : r.sharesOut.units = m * unit)
    (hin : r.sharesIn.units = n * unit) (hn : 0 < n) (hfits : Representable (shares.units * m))
    (hle : |shares.units * m| ≤ c * unit) (hc : c < unit) :
    ∃ x, r.apply shares = .ok x ∧ |x.units * n - shares.units * m| ≤ n + c := by
  rw [apply_eq_nearest hout hin hn hfits]
  refine exists_nearest_close .divisionOverflow hn hle ?_
  have := Nat.mul_le_mul_left maxMantissa hn
  have hunit : unit ≤ maxMantissa := by decide
  omega

/-- Taking a ratio back from any number of places rounds the product as well, and is off by twice as
much. -/
theorem exists_revert_close {c : Nat} (hout : r.sharesOut.units = m * unit)
    (hin : r.sharesIn.units = n * unit) (hm : 0 < m) (hle : |shares.units * n| ≤ c * unit)
    (hc : c < unit) :
    ∃ x, r.revert shares = .ok x ∧ |x.units * m - shares.units * n| ≤ m + 2 * c + 2 := by
  have hunit : unit < maxMantissa := by decide
  obtain ⟨z, hz, hzclose⟩ :=
    exists_nearest_close .multiplicationOverflow Nat.one_pos hle (by omega)
  have hzle : |z.units| ≤ ((c + 1 : Nat) : Int) * unit := by
    have htriangle := abs_sub_abs_le_abs_sub z.units (shares.units * n)
    rw [Int.natCast_one, Int.mul_one] at hzclose
    rw [Int.natCast_add, Int.add_mul]
    omega
  obtain ⟨x, hx, hxclose⟩ := exists_nearest_close .divisionOverflow hm hzle (by
    have := Nat.mul_le_mul_left maxMantissa hm
    omega)
  have hmul : shares.mul r.sharesIn = .ok z := by rw [mul_of_units hin, ← hz, Nat.one_mul]
  refine ⟨x, ?_, ?_⟩
  · rw [SplitRatio.revert, hmul, ← hx]
    exact div_of_units hout hm
  · have htriangle := abs_sub_le (x.units * m) z.units (shares.units * n)
    rw [Int.natCast_one, Int.mul_one] at hzclose
    omega

/-- A quantity of shares that a ratio is applied to, then rounded to sixteen places, and then the ratio
taken back, ends close to where it was. If for one share after the splits there are up to ten million
before them, that is less than half of the eighth place. -/
theorem exists_apply_revert_close {c : Nat} (hout : r.sharesOut.units = m * unit)
    (hin : r.sharesIn.units = n * unit) (hm : 0 < m) (hn : 0 < n) (hn_le : n ≤ tenTo 16)
    (hc : c ≤ tenTo 18) (hgrid : shares.OnGrid 8) (hle : |shares.units * m| ≤ c * unit) :
    ∃ y w, r.apply shares = .ok y ∧ r.revert (y.round 16) = .ok w ∧
      |y.units * n - shares.units * m| ≤ n + c ∧
      (n ≤ tenTo 7 * m → 2 * |w.units - shares.units| < tenTo 20) := by
  -- eight places leave room for a large product to be exact
  have hfits : Representable (shares.units * m) := by
    refine representable_of_tenTo_dvd (by decide : 20 ≤ maxPlaces) (Int.dvd_mul_of_dvd_left hgrid) ?_
    rw [Int.abs_eq_natAbs] at hle
    simp only [tenTo_18, tenTo_20, unit_eq, maxMantissa] at *
    omega
  have hsize : c + 1 < unit := by
    simp only [tenTo_18, unit_eq] at *
    omega
  obtain ⟨y, hy, hyclose⟩ := exists_apply_close hout hin hn hfits hle (by omega)
  -- the sixteenth place is where most is lost, since `n` may be that much larger than `m`
  have hrounded : 2 * |(y.round 16).units * n - y.units * n| ≤ tenTo 12 * n := by
    rw [← Int.sub_mul, abs_mul, abs_of_nonneg (Int.natCast_nonneg n), ← Int.mul_assoc]
    exact Int.mul_le_mul_of_nonneg_right (round_close 16 y) (Int.natCast_nonneg n)
  have hthere := abs_sub_le ((y.round 16).units * n) (y.units * n) (shares.units * m)
  have hback : |(y.round 16).units * n| ≤ ((c + 1 : Nat) : Int) * unit := by
    have htriangle := abs_sub_abs_le_abs_sub ((y.round 16).units * n) (shares.units * m)
    simp only [tenTo_12, tenTo_16, tenTo_18, unit_eq] at *
    omega
  obtain ⟨w, hw, hwclose⟩ := exists_revert_close hout hin hm hback hsize
  refine ⟨y, w, hy, hw, hyclose, fun hratio => ?_⟩
  have hall := abs_sub_le (w.units * m) ((y.round 16).units * n) (shares.units * m)
  rw [← Int.sub_mul, abs_mul, abs_of_nonneg (Int.natCast_nonneg m)] at hall
  refine Int.lt_of_mul_lt_mul_right ?_ (Int.natCast_nonneg m)
  simp only [tenTo_7, tenTo_12, tenTo_18, tenTo_20] at *
  rw [Int.mul_assoc]
  omega

end SplitRatio

/-! ## Conversions over a period -/

namespace SplitHistory

/-- The splits that count within a period, earliest first. -/
def splitsOver (h : SplitHistory) (period : HoldingPeriod) : List StockSplit :=
  h.splits.items.filter fun split => period.contains split.date

variable {h : SplitHistory} {period : HoldingPeriod} {r : SplitRatio} {p a : Decimal} {m n s : Nat}

/-- Whole splits have the compound ratio of their products, as long as these fit. -/
theorem ratioOver_whole (h : SplitHistory) (period : HoldingPeriod)
    (hwhole : ∀ split ∈ h.splitsOver period, split.ratio.IsWhole)
    (hm : ((h.splitsOver period).map fun split => split.ratio.sharesOut.wholePart).prod = m)
    (hn : ((h.splitsOver period).map fun split => split.ratio.sharesIn.wholePart).prod = n)
    (hm_le : m ≤ maxMantissa) (hn_le : n ≤ maxMantissa) :
    ∃ r, h.ratioOver period = .ok r ∧ r.sharesOut.units = m * unit ∧ r.sharesIn.units = n * unit := by
  have hone : (1 : Decimal).units = (1 : Nat) * unit := rfl
  obtain ⟨r, hr, hout, hin⟩ := SplitRatio.foldlM_compound_whole (r := .identity) hwhole hone hone
    (by rwa [hm, Nat.one_mul]) (by rwa [hn, Nat.one_mul])
  rw [hm, Nat.one_mul] at hout
  rw [hn, Nat.one_mul] at hin
  exact ⟨r, hr, hout, hin⟩

theorem convert_eq_ok {conversion : SplitRatio → Decimal → Except ArithmeticFault Decimal}
    {shares x : Decimal} (direction : Rounding) (places : Nat) (hr : h.ratioOver period = .ok r)
    (hx : conversion r shares = .ok x) :
    h.convert period shares conversion direction places =
      .ok (if r.isIdentity then shares else x.roundTo direction places) := by
  rw [convert, hr]
  show (if r.isIdentity then pure shares else _) = _
  split
  · rfl
  · rw [hx]
    rfl

/-- A conversion leaves the shares as they are where no split counts, and rounds what the compound of
the splits makes of them otherwise. -/
theorem ratio_of_convert {shares y : Decimal}
    {conversion : SplitRatio → Decimal → Except ArithmeticFault Decimal} {direction : Rounding}
    {places : Nat} (hy : h.convert period shares conversion direction places = .ok y) :
    ∃ r, h.ratioOver period = .ok r ∧
      (r.isIdentity = true ∧ y = shares ∨ r.isIdentity = false ∧
        ∃ x, conversion r shares = .ok x ∧ y = x.roundTo direction places) := by
  simp only [convert, bind_eq_ok_iff] at hy
  obtain ⟨r, hr, hy⟩ := hy
  refine ⟨r, hr, ?_⟩
  split at hy
  · rename_i hidentity
    exact .inl ⟨hidentity, (pure_eq_ok_iff.mp hy).symm⟩
  · rename_i hsplit
    simp only [bind_eq_ok_iff, pure_eq_ok_iff] at hy
    obtain ⟨x, hx, rfl⟩ := hy
    exact .inr ⟨Bool.not_eq_true _ ▸ hsplit, x, hx, rfl⟩

/-- Covering and covered shares compare as the exact ratio does: shares `a` after the splits are covered by
`p` shares before them if and only if `p` is at least what covers `a`. What covers a count backs it, and a
count backs what it covers. -/
theorem covered_covering_adjoint (hr : h.ratioOver period = .ok r)
    (hout : r.sharesOut.units = m * unit) (hin : r.sharesIn.units = n * unit)
    (hm : 1 ≤ m) (hm_le : m ≤ tenTo 6) (hn : 1 ≤ n) (hn_le : n ≤ tenTo 6) (hs : s ≤ 8)
    (hp : p.OnGrid s) (hp_le : p.units.natAbs * m ≤ trillion)
    (ha : a.OnGrid 16) (ha_le : a.units.natAbs * n ≤ trillion) :
    ∃ capacity demand, h.covered period p = .ok capacity ∧ h.covering period a s = .ok demand ∧
      a.units * n ≤ demand.units * m ∧ capacity.units * n ≤ p.units * m ∧
      (a ≤ capacity ↔ a.units * n ≤ p.units * m) ∧ (demand ≤ p ↔ a.units * n ≤ p.units * m) := by
  have hsix : tenTo 6 ≤ tenTo 12 := by decide
  have hp16 := hp.mono 16 (by omega)
  obtain ⟨x, hx, hxsides⟩ := SplitRatio.apply_sides hout hin hn (hn_le.trans hsix) hp16 hp_le
  obtain ⟨y, hy, hysides⟩ :=
    SplitRatio.apply_sides (r := r.inverse) hin hout hm (hm_le.trans hsix) ha ha_le
  refine ⟨_, _, convert_eq_ok .down _ hr hx, convert_eq_ok .up s hr hy, ?_⟩
  by_cases hidentity : r.isIdentity = true
  · obtain rfl := SplitRatio.eq_of_isIdentity hout hin hidentity
    have hscaled : a.units * m ≤ p.units * m ↔ a.units ≤ p.units :=
      Int.mul_le_mul_right (Int.natCast_pos.mpr hm)
    rw [if_pos hidentity, if_pos hidentity, hscaled]
    exact ⟨Int.le_refl _, Int.le_refl _, Iff.rfl, Iff.rfl⟩
  · rw [if_neg hidentity, if_neg hidentity]
    have hdown : (x.roundTo .down 16).OnGrid 16 := onGrid_roundTo ..
    have hup : (y.roundTo .up s).OnGrid s := onGrid_roundTo ..
    have hbelow : (x.roundTo .down 16).units ≤ x.units := (le_roundTo_down_iff hdown).mp (Int.le_refl _)
    have habove : y.units ≤ (y.roundTo .up s).units := (roundTo_up_le_iff hup).mp (Int.le_refl _)
    exact ⟨(hysides _ (hup.mono 16 (by omega))).2.mp habove, (hxsides _ hdown).1.mp hbelow,
      (le_roundTo_down_iff ha).trans (hxsides _ ha).1, (roundTo_up_le_iff hp).trans (hysides _ hp16).2⟩

/-- Three for two, and later one for seven. -/
def thinned : SplitHistory :=
  ⟨⟨1⟩, .ofList [⟨.june 20, ⟨.whole 3, .whole 2⟩⟩, ⟨.june 22, ⟨1, .whole 7⟩⟩]⟩

/-- From before these splits on, without an end. -/
def sinceJune : HoldingPeriod := ⟨.june 10, none, .inclusive⟩

theorem thinned_ratio :
    ∃ r, thinned.ratioOver sinceJune = .ok r ∧ r.sharesOut.units = (3 : Nat) * unit ∧
      r.sharesIn.units = (14 : Nat) * unit :=
  ratioOver_whole thinned sinceJune (by decide +kernel) (by decide +kernel) (by decide +kernel)
    (by decide) (by decide)

/-- Three fourteenths owed, rounded away from zero at the last place that is kept. -/
def owed : Decimal := .ofMantissa (-2142857142857143) 16 (by decide)

theorem covered_covering_adjoint_thinned :
    ∃ capacity demand, thinned.covered sinceJune (-1) = .ok capacity ∧
      thinned.covering sinceJune owed 3 = .ok demand ∧ owed ≤ capacity ∧ demand ≤ -1 := by
  obtain ⟨r, hr, hout, hin⟩ := thinned_ratio
  obtain ⟨capacity, demand, hcapacity, hdemand, -, -, hbelow, habove⟩ :=
    covered_covering_adjoint (s := 3) (p := -1) (a := owed) hr hout hin (by decide) (by decide)
      (by decide) (by decide) (by decide) (by decide +kernel) (by decide +kernel) (by decide +kernel)
      (by decide +kernel)
  have hexact : owed.units * (14 : Nat) ≤ (-1 : Decimal).units * (3 : Nat) := by decide +kernel
  exact ⟨capacity, demand, hcapacity, hdemand, hbelow.mpr hexact, habove.mpr hexact⟩

/-- A quantity of at most a thousand million shares that is carried across splits, and rounded half-even to
sixteen places, is found again when it is carried back, and no conversion overflows. For one share after
the splits there may be up to ten million before them. -/
theorem revert_apply_cancel (hr : h.ratioOver period = .ok r)
    (hout : r.sharesOut.units = m * unit) (hin : r.sharesIn.units = n * unit)
    (hm : 1 ≤ m) (hm_le : m ≤ tenTo 9) (hn : 1 ≤ n) (hn_le : n ≤ tenTo 7 * m) (hs : s ≤ 8)
    (hp : p.OnGrid s) (hp_le : p.units.natAbs ≤ tenTo 9 * unit) :
    ∃ y, r.apply p = .ok y ∧ h.apply period p = .ok (y.round 16) ∧
      h.revert period (y.round 16) s = .ok p := by
  have hproduct : |p.units * m| ≤ ((tenTo 9 * m : Nat) : Int) * unit := by
    rw [Int.abs_eq_natAbs, Int.natAbs_mul, Int.natAbs_natCast, ← Int.natCast_mul, Nat.mul_right_comm]
    exact Int.ofNat_le.mpr (Nat.mul_le_mul_right m hp_le)
  have hn_sixteen : n ≤ tenTo 16 :=
    (hn_le.trans (Nat.mul_le_mul_left _ hm_le)).trans_eq (tenTo_add 7 9).symm
  have hsize : tenTo 9 * m ≤ tenTo 18 := (Nat.mul_le_mul_left _ hm_le).trans_eq (tenTo_add 9 9).symm
  obtain ⟨y, w, hy, hw, hyclose, hwclose⟩ :=
    SplitRatio.exists_apply_revert_close hout hin hm hn hn_sixteen hsize (hp.mono 8 hs) hproduct
  replace hwclose := hwclose hn_le
  have happly := convert_eq_ok .halfEven adjustedPlaces hr hy
  have hrevert := convert_eq_ok .halfEven s hr hw
  refine ⟨y, hy, ?_⟩
  by_cases hidentity : r.isIdentity = true
  -- nothing is converted then, and what the ratio comes to is no other number
  · obtain rfl := SplitRatio.eq_of_isIdentity hout hin hidentity
    have hfactor : |y.units - p.units| * m ≤ (1 + tenTo 9) * m := by
      rw [← Int.sub_mul, abs_mul, abs_of_nonneg (Int.natCast_nonneg m), Int.natCast_mul] at hyclose
      linarith
    have hnear := Int.le_of_mul_le_mul_right hfactor (by omega)
    have hround : y.round 16 = p := by
      refine round_eq_of_close (hp.mono 16 (by omega)) ?_
      show 2 * |y.units - p.units| < tenTo 12
      simp only [tenTo_9, tenTo_12] at hnear ⊢
      omega
    rw [if_pos hidentity] at happly hrevert
    rw [hround] at hrevert ⊢
    exact ⟨happly, hrevert⟩
  · rw [if_neg hidentity] at happly hrevert
    have hstep : (tenTo 20 : Int) ≤ tenTo (maxPlaces - s) :=
      Int.ofNat_le.mpr (Nat.pow_le_pow_right (by decide) (by simp only [maxPlaces]; omega))
    have hround : w.round s = p := round_eq_of_close hp (by omega)
    exact ⟨happly, hrevert.trans (congrArg _ hround)⟩

/-- Almost a thousand million shares owed, with all places that shares can have. -/
def manyOwed : Decimal := .ofMantissa (-99999999999999999) 8 (by decide)

theorem revert_apply_cancel_thinned :
    ∃ x, thinned.apply sinceJune manyOwed = .ok x ∧ thinned.revert sinceJune x 8 = .ok manyOwed := by
  obtain ⟨r, hr, hout, hin⟩ := thinned_ratio
  obtain ⟨y, -, happly, hrevert⟩ := revert_apply_cancel (s := 8) (p := manyOwed) hr hout hin
    (by decide) (by decide) (by decide) (by decide) (by decide) (by decide +kernel) (by decide +kernel)
  exact ⟨y.round 16, happly, hrevert⟩

end SplitHistory

end Lotbook
