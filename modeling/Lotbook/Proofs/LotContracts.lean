/-
# Lotbook.Proofs.LotContracts -- when the shares of a lot keep its contracts

The shares of a lot as of the purchase date are rounded up, so that they back those as of the sale date,
and sixteen places are kept on the way from one date to the other, so that they are found again. That is
checked whenever they are derived (`Ledger.lotPurchaseShares`). For a ratio of whole numbers and shares
that are not too many, neither check stops with an overflow, and each fails for one reason only
(`Ledger.lotPurchaseShares_cases`): the shares may not back the lot where one share becomes more than a
trillion, since what takes less than one in the last place of a decimal is no shares, which are not rounded
up; and they may not be found again where more than ten million shares become one, since then a share is
less than one in the sixteenth place.
-/
import Lotbook.Proofs.Conversions
import Lotbook.Proofs.Scales

namespace Lotbook.Ledger

open Decimal

variable {l : Ledger} {c : SplitContext} {key : LotKey} {r : SplitRatio} {m n : Nat} {p a x : Decimal}

/-! ## Conversions in a context -/

/-- The security of a context with days to look at is one of the ledger. -/
theorem security?_of_periodOf? {s : Security} {period : HoldingPeriod}
    (h : l.periodOf? c = some (s, period)) :
    ∃ id, c.security = some id ∧ l.security? id = some s := by
  simp only [periodOf?, bind, pure, Option.bind_eq_some_iff] at h
  obtain ⟨id, hid, s', hs, start, -, heq⟩ := h
  obtain ⟨rfl, -⟩ := Prod.mk.inj (Option.some.inj heq)
  exact ⟨id, hid, hs⟩

/-- The places that shares at the start of a context are kept at. -/
def placesOver (l : Ledger) (c : SplitContext) : Nat :=
  (l.periodOf? c).elim l.settings.sharePlaces fun found => found.1.places

theorem Scaled.placesOver_eq (h : l.Scaled) (c : SplitContext) :
    l.placesOver c = l.settings.sharePlaces := by
  unfold placesOver
  cases hperiod : l.periodOf? c with
  | none => rfl
  | some found =>
    obtain ⟨id, -, hs⟩ := security?_of_periodOf? hperiod
    exact h.security id found.1 hs

theorem applySplits_of_ratio (hr : l.splitRatio c = .ok r) (hx : r.apply p = .ok x) :
    l.applySplits c p = .ok (if r.isIdentity then p else x.round SplitHistory.adjustedPlaces) := by
  unfold splitRatio at hr
  unfold applySplits
  split at hr
  · exact SplitHistory.convert_eq_ok .halfEven _ hr hx
  · obtain rfl := Except.ok.inj hr
    rfl

theorem revertSplits_of_ratio (hr : l.splitRatio c = .ok r) (hx : r.revert a = .ok x) :
    l.revertSplits c a = .ok (if r.isIdentity then a else x.round (l.placesOver c)) := by
  unfold splitRatio at hr
  unfold revertSplits placesOver
  split at hr
  · rename_i hperiod
    rw [hperiod]
    exact SplitHistory.convert_eq_ok .halfEven _ hr hx
  · obtain rfl := Except.ok.inj hr
    rfl

theorem coveredBy_of_ratio (hr : l.splitRatio c = .ok r) (hx : r.apply p = .ok x) :
    l.coveredBy c p = .ok (if r.isIdentity then p else x.roundTo .down 16) := by
  unfold splitRatio at hr
  unfold coveredBy
  split at hr
  · exact SplitHistory.convert_eq_ok .down _ hr hx
  · obtain rfl := Except.ok.inj hr
    rfl

theorem coveredBy_eq_ok {backed : Decimal} (h : l.coveredBy c p = .ok backed) :
    ∃ r, l.splitRatio c = .ok r ∧
      (r.isIdentity = true ∧ backed = p ∨ r.isIdentity = false ∧
        ∃ x, r.apply p = .ok x ∧ backed = x.roundTo .down SplitHistory.adjustedPlaces) := by
  unfold coveredBy at h
  unfold splitRatio
  split at h
  · exact SplitHistory.ratio_of_convert h
  · exact ⟨.identity, rfl, .inl ⟨rfl, (Except.ok.inj h).symm⟩⟩

theorem covering_of_ratio (hr : l.splitRatio c = .ok r) (hx : r.revert a = .ok x) :
    l.covering c a = .ok (if r.isIdentity then a else x.roundTo .up (l.placesOver c)) := by
  unfold splitRatio at hr
  unfold covering placesOver
  split at hr
  · rename_i hperiod
    rw [hperiod]
    exact SplitHistory.convert_eq_ok .up _ hr hx
  · obtain rfl := Except.ok.inj hr
    rfl

theorem covering_eq_ok (h : l.covering c a = .ok p) : ∃ r, l.splitRatio c = .ok r ∧
    (r.isIdentity = true ∧ p = a ∨ r.isIdentity = false ∧
      ∃ x, r.revert a = .ok x ∧ p = x.roundTo .up (l.placesOver c)) := by
  unfold covering at h
  unfold splitRatio placesOver
  split at h
  · rename_i hperiod
    rw [hperiod]
    exact SplitHistory.ratio_of_convert h
  · exact ⟨.identity, rfl, .inl ⟨rfl, (Except.ok.inj h).symm⟩⟩

/-- What holds of every split of a ledger, of no split and of what compounds of splits come to, holds
of the splits between two days. -/
theorem splitRatio_keeps {P : SplitRatio → Prop} (hidentity : P .identity)
    (hcompound : ∀ r s t : SplitRatio, P r → P s → r.compound s = .ok t → P t)
    (hsplits : ∀ s ∈ l.securities.items, ∀ split ∈ s.history.splits.items, P split.ratio)
    (hr : l.splitRatio c = .ok r) : P r := by
  unfold splitRatio at hr
  split at hr
  · rename_i s period hperiod
    obtain ⟨id, -, hfound⟩ := security?_of_periodOf? hperiod
    have hs : s ∈ l.securities.items := (Register.get?_eq_some_iff.mp hfound).1
    unfold SplitHistory.ratioOver at hr
    exact foldlM_keeps (fun _ split _ hsplit hacc hstep =>
      hcompound _ _ _ hacc (hsplits s hs split (List.mem_of_mem_filter hsplit)) hstep) hidentity hr
  · obtain rfl := Except.ok.inj hr
    exact hidentity

/-! ## The contracts -/

section Contracts

variable (hr : l.splitRatio c = .ok r) (hout : r.sharesOut.units = m * unit)
  (hin : r.sharesIn.units = n * unit) (hm : 0 < m) (hn : 0 < n) (hplaces : l.placesOver c ≤ 8)
  (hcovering : l.covering c a = .ok p) (ha : a.OnGrid 16)
include hr hcovering

/-- What it takes to back shares comes out of the ratio that lies in between. -/
theorem covering_ratio : r.isIdentity = true ∧ p = a ∨ r.isIdentity = false ∧
    ∃ x, r.revert a = .ok x ∧ p = x.roundTo .up (l.placesOver c) := by
  obtain ⟨r', hr', hcases⟩ := covering_eq_ok hcovering
  obtain rfl := Except.ok.inj (hr.symm.trans hr')
  exact hcases

include hplaces ha

theorem onGrid_of_covering : p.OnGrid 16 := by
  rcases covering_ratio hr hcovering with ⟨-, rfl⟩ | ⟨-, x, -, rfl⟩
  · exact ha
  · exact (onGrid_roundTo .up _ x).mono 16 (by omega)

include hout hin hm

/-- The shares are rounded up to no less than it takes exactly, unless one share becomes too many. -/
theorem mul_le_of_covering (hm_le : m ≤ tenTo 12) (ha_le : a.units.natAbs * n ≤ trillion) :
    a.units * n ≤ p.units * m := by
  rcases covering_ratio hr hcovering with ⟨hidentity, rfl⟩ | ⟨-, x, hx, rfl⟩
  · obtain rfl := SplitRatio.eq_of_isIdentity hout hin hidentity
    exact Int.le_refl _
  · obtain ⟨y, hy, hsides⟩ :=
      SplitRatio.apply_sides (r := r.inverse) hin hout hm hm_le ha ha_le
    obtain rfl := Except.ok.inj (hx.symm.trans hy)
    have hup : (x.roundTo .up (l.placesOver c)).OnGrid (l.placesOver c) := onGrid_roundTo ..
    have habove : x.units ≤ (x.roundTo .up (l.placesOver c)).units :=
      (roundTo_up_le_iff hup).mp (Int.le_refl _)
    exact (hsides _ (hup.mono 16 (by omega))).2.mp habove

include hn

/-- So they do back the lot. -/
theorem exists_apply_backs (hn_le : n ≤ tenTo 12) (ha_le : a.units.natAbs * n ≤ trillion)
    (hp_le : p.units.natAbs * m ≤ trillion) :
    ∃ x, r.apply p = .ok x ∧ (m ≤ tenTo 12 → a ≤ x) := by
  have hgrid : p.OnGrid 16 := onGrid_of_covering hr hplaces hcovering ha
  obtain ⟨x, hx, hsides⟩ := SplitRatio.apply_sides hout hin hn hn_le hgrid hp_le
  exact ⟨x, hx, fun hm_le =>
    (hsides _ ha).1.mpr (mul_le_of_covering hr hout hin hm hplaces hcovering ha hm_le ha_le)⟩

/-- They are found again, unless too many shares become one. -/
theorem exists_roundTrip (hn_le : n ≤ tenTo 12) (hp_le : p.units.natAbs * m ≤ trillion) :
    ∃ y found, l.applySplits c p = .ok y ∧ l.revertSplits c y = .ok found ∧
      (n ≤ tenTo 7 * m → found = p) := by
  have hproduct : |p.units * m| ≤ ((tenTo 12 : Nat) : Int) * unit := by
    rw [Int.abs_eq_natAbs, Int.natAbs_mul, Int.natAbs_natCast]
    exact Int.ofNat_le.mpr hp_le
  by_cases hidentity : r.isIdentity = true
  -- nothing is converted then, whatever the ratio would come to
  · have hgrid : p.OnGrid 16 := onGrid_of_covering hr hplaces hcovering ha
    obtain ⟨x, hx, -⟩ := SplitRatio.apply_sides hout hin hn hn_le hgrid hp_le
    obtain rfl := SplitRatio.eq_of_isIdentity hout hin hidentity
    obtain ⟨w, hw, -⟩ := SplitRatio.exists_revert_close (r := r) hout hin hm hproduct (by decide)
    have happly := applySplits_of_ratio hr hx
    have hrevert := revertSplits_of_ratio hr hw
    rw [if_pos hidentity] at happly hrevert
    exact ⟨p, p, happly, hrevert, fun _ => rfl⟩
  · obtain ⟨htrue, -⟩ | ⟨-, x, -, rfl⟩ := covering_ratio hr hcovering
    · exact absurd htrue hidentity
    set p := x.roundTo .up (l.placesOver c)
    have hgrid : p.OnGrid (l.placesOver c) := onGrid_roundTo ..
    obtain ⟨y, w, hy, hw, -, hclose⟩ := SplitRatio.exists_apply_revert_close hout hin hm hn
      (hn_le.trans (by decide)) (by decide : tenTo 12 ≤ tenTo 18) (hgrid.mono 8 hplaces) hproduct
    have happly := applySplits_of_ratio hr hy
    have hrevert := revertSplits_of_ratio hr hw
    rw [if_neg hidentity] at happly hrevert
    refine ⟨_, _, happly, hrevert, fun hratio => round_eq_of_close hgrid ?_⟩
    have hstep : (tenTo 20 : Int) ≤ tenTo (maxPlaces - l.placesOver c) :=
      Int.ofNat_le.mpr (Nat.pow_le_pow_right (by decide) (by simp only [maxPlaces]; omega))
    have := hclose hratio
    omega

end Contracts

/-- Deriving a lot comes to what it takes to back it, or to one of the contracts that is broken: where one
share becomes too many, or too many shares become one. -/
theorem lotPurchaseShares_cases (hr : l.splitRatio (l.lotContext key) = .ok r)
    (hout : r.sharesOut.units = m * unit) (hin : r.sharesIn.units = n * unit) (hm : 0 < m) (hn : 0 < n)
    (hn_le : n ≤ tenTo 12) (hplaces : l.placesOver (l.lotContext key) ≤ 8)
    (hcovering : l.covering (l.lotContext key) a = .ok p) (ha : a.OnGrid 16)
    (ha_le : a.units.natAbs * n ≤ trillion) (hp_le : p.units.natAbs * m ≤ trillion) :
    l.lotPurchaseShares key a = .ok p ∨
      (tenTo 12 < m ∧ l.lotPurchaseShares key a = .error (.broken (.backing key))) ∨
      (tenTo 7 * m < n ∧
        ∃ found, l.lotPurchaseShares key a = .error (.broken (.roundTrip key found p))) := by
  obtain ⟨x, hx, hbacks⟩ :=
    exists_apply_backs hr hout hin hm hn hplaces hcovering ha hn_le ha_le hp_le
  obtain ⟨y, found, hy, hfound, htrip⟩ :=
    exists_roundTrip hr hout hin hm hn hplaces hcovering ha hn_le hp_le
  have hderive : l.lotPurchaseShares key a = (do
      LotContract.check (.backing key) (a ≤ x)
      LotContract.check (.roundTrip key found p) (found = p)
      return p) := by
    simp only [lotPurchaseShares, hcovering, hr, hx, hy, hfound, bind, Except.bind]
  rw [hderive]
  by_cases hbacked : a ≤ x
  · rw [LotContract.check_of_kept hbacked]
    by_cases hsame : found = p
    · rw [LotContract.check_of_kept hsame]
      exact .inl rfl
    · rw [LotContract.check_of_not_kept hsame]
      exact .inr (.inr ⟨Nat.lt_of_not_le (mt htrip hsame), found, rfl⟩)
  · rw [LotContract.check_of_not_kept hbacked]
    exact .inr (.inl ⟨Nat.lt_of_not_le (mt hbacks hbacked), rfl⟩)

end Lotbook.Ledger
