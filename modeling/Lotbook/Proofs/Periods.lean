/-
# Lotbook.Proofs.Periods -- holding periods cut in two

A period can be cut at any day after its first and not after its last. The part before that day does not
count it and the part from it on does, so that every split of the period is in exactly one of the parts,
whatever the rule for the ends is (`SplitHistory.splitsOver_cut`). The ratio over the period is then the
compound of the ratios over its parts (`SplitHistory.ratioOver_cut`).
-/
import Lotbook.Proofs.Conversions

namespace Lotbook

open Decimal

/-! ## Days in order -/

namespace Ranked

variable {κ : Type} [Ranked κ] {a b c : κ}

theorem le_of_lt (h : a < b) : a ≤ b := not_lt.mp fun hba => lt_irrefl a (lt_trans h hba)

theorem lt_of_lt_of_le (hab : a < b) (hbc : b ≤ c) : a < c := by
  rcases lt_or_eq_or_gt b c with hlt | rfl | hgt
  · exact lt_trans hab hlt
  · exact hab
  · exact absurd hgt (not_lt.mpr hbc)

end Ranked

/-! ## Both parts of a period -/

namespace SplitBoundary

/-- The same rule for the first day, with the last day not counted. -/
def withoutFinish : SplitBoundary → SplitBoundary
  | .inclusive | .excludeEnd => .excludeEnd
  | .excludeStart | .exclusive => .exclusive

/-- The same rule for the last day, with the first day counted. -/
def withStart : SplitBoundary → SplitBoundary
  | .inclusive | .excludeStart => .inclusive
  | .excludeEnd | .exclusive => .excludeEnd

end SplitBoundary

namespace HoldingPeriod

/-- Whether a period can be cut at a day. -/
def Spans (period : HoldingPeriod) (day : Date) : Prop :=
  period.start < day ∧ ∀ finish ∈ period.finish, day ≤ finish

instance (period : HoldingPeriod) (day : Date) : Decidable (period.Spans day) :=
  inferInstanceAs (Decidable (_ ∧ _))

/-- The part of a period before a day. -/
def before (period : HoldingPeriod) (day : Date) : HoldingPeriod :=
  ⟨period.start, some day, period.boundary.withoutFinish⟩

/-- The part of a period from a day on. -/
def since (period : HoldingPeriod) (day : Date) : HoldingPeriod :=
  ⟨day, period.finish, period.boundary.withStart⟩

variable {period : HoldingPeriod} {day date : Date}

/-- Whether a day is not too late for a period. -/
def reaches (period : HoldingPeriod) (date : Date) : Bool :=
  match period.finish with
  | none => true
  | some finish =>
      if period.boundary.countsFinish then decide (date ≤ finish) else decide (date < finish)

/-- Whether a day is not too early for a period. -/
def begun (period : HoldingPeriod) (date : Date) : Bool :=
  if period.boundary.countsStart then decide (period.start ≤ date) else decide (period.start < date)

theorem contains_eq (period : HoldingPeriod) (date : Date) :
    period.contains date = (period.begun date && period.reaches date) := by
  obtain ⟨start, finish, boundary⟩ := period
  cases finish <;> rfl

theorem Spans.begun (h : period.Spans day) (hdate : day ≤ date) : period.begun date = true := by
  have hlt := Ranked.lt_of_lt_of_le h.1 hdate
  unfold HoldingPeriod.begun
  split
  · exact decide_eq_true (Ranked.le_of_lt hlt)
  · exact decide_eq_true hlt

theorem Spans.reaches (h : period.Spans day) (hdate : date < day) : period.reaches date = true := by
  unfold HoldingPeriod.reaches
  split
  · rfl
  · rename_i finish hfinish
    have hlt := Ranked.lt_of_lt_of_le hdate (h.2 finish hfinish)
    split
    · exact decide_eq_true (Ranked.le_of_lt hlt)
    · exact decide_eq_true hlt

/-- The part before a day has what the period has before it. -/
theorem Spans.contains_before (h : period.Spans day) (date : Date) :
    (period.before day).contains date = (period.contains date && decide (date < day)) := by
  have hbegun : (period.before day).begun date = period.begun date := by
    obtain ⟨start, finish, boundary⟩ := period
    cases boundary <;> rfl
  have hreaches : (period.before day).reaches date = decide (date < day) := by
    obtain ⟨start, finish, boundary⟩ := period
    cases boundary <;> rfl
  rw [contains_eq, contains_eq, hbegun, hreaches]
  by_cases hdate : date < day
  · rw [h.reaches hdate, Bool.and_true, decide_eq_true hdate]
  · rw [decide_eq_false hdate, Bool.and_false, Bool.and_false]

/-- The part from a day on has what the period has from it on. -/
theorem Spans.contains_since (h : period.Spans day) (date : Date) :
    (period.since day).contains date = (period.contains date && !decide (date < day)) := by
  have hbegun : (period.since day).begun date = !decide (date < day) := by
    obtain ⟨start, finish, boundary⟩ := period
    cases boundary <;> exact (decide_eq_decide.mpr Ranked.not_lt.symm).trans (decide_not ..)
  have hreaches : (period.since day).reaches date = period.reaches date := by
    obtain ⟨start, finish, boundary⟩ := period
    cases boundary <;> rfl
  rw [contains_eq, contains_eq, hbegun, hreaches]
  by_cases hdate : date < day
  · rw [decide_eq_true hdate, Bool.not_true, Bool.false_and, Bool.and_false]
  · rw [h.begun (Ranked.not_lt.mp hdate), decide_eq_false hdate, Bool.not_false, Bool.true_and,
      Bool.and_true]

end HoldingPeriod

/-! ## The splits of both parts -/

/-- Items in ascending order are those below a key followed by the others. -/
theorem Register.filter_append_filter_not {α κ : Type} [Keyed α κ] [Ranked κ] {xs : List α}
    (h : xs.Pairwise fun a b => key a < key b) (k : κ) :
    (xs.filter fun x => decide (key x < k)) ++ (xs.filter fun x => !decide (key x < k)) = xs := by
  induction xs with
  | nil => rfl
  | cons x xs ih =>
    obtain ⟨hx, hxs⟩ := List.pairwise_cons.mp h
    by_cases hbelow : key x < k
    · rw [List.filter_cons_of_pos (by simpa using hbelow),
        List.filter_cons_of_neg (by simpa using hbelow), List.cons_append, ih hxs]
    · have hnone : (xs.filter fun y => decide (key y < k)) = [] :=
        List.filter_eq_nil_iff.mpr fun y hy hyk =>
          hbelow (Ranked.lt_trans (hx y hy) (of_decide_eq_true hyk))
      have hall := ih hxs
      rw [hnone, List.nil_append] at hall
      rw [List.filter_cons_of_neg (by simpa using hbelow),
        List.filter_cons_of_pos (by simpa using hbelow), hnone, List.nil_append, hall]

namespace SplitHistory

/-- Splits whose ratios are in whole numbers, with products that fit a mantissa. -/
structure Compounds (splits : List StockSplit) : Prop where
  whole : ∀ split ∈ splits, split.ratio.IsWhole
  sharesOut_fits :
    (splits.map fun split => split.ratio.sharesOut.wholePart).prod ≤ maxMantissa
  sharesIn_fits :
    (splits.map fun split => split.ratio.sharesIn.wholePart).prod ≤ maxMantissa

variable {h : SplitHistory} {period : HoldingPeriod} {day : Date}

/-- No split is counted twice or lost where a period is cut. -/
theorem splitsOver_cut (h : SplitHistory) (hspans : period.Spans day) :
    h.splitsOver period = h.splitsOver (period.before day) ++ h.splitsOver (period.since day) := by
  have hsorted := h.splits.sorted.filter fun split => period.contains split.date
  have hparts := Register.filter_append_filter_not hsorted day
  rw [List.filter_filter, List.filter_filter] at hparts
  unfold splitsOver
  rw [← hparts]
  refine congrArg₂ (· ++ ·) (List.filter_congr fun split _ => ?_) (List.filter_congr fun split _ => ?_)
  · rw [hspans.contains_before, Bool.and_comm]
    rfl
  · rw [hspans.contains_since, Bool.and_comm]
    rfl

/-- Fewer splits have smaller products. -/
theorem prod_wholePart_le {splits kept : List StockSplit} (part : StockSplit → Decimal)
    (hwhole : ∀ split ∈ splits, (part split).IsWhole) (hkept : kept.Sublist splits) :
    (kept.map fun split => (part split).wholePart).prod ≤
      (splits.map fun split => (part split).wholePart).prod := by
  induction hkept with
  | slnil => exact Nat.le_refl _
  | cons x _ ih =>
    obtain ⟨hx, hrest⟩ := List.forall_mem_cons.mp hwhole
    rw [List.map_cons, List.prod_cons]
    exact (ih hrest).trans (Nat.le_mul_of_pos_left _ hx.units_eq.1)
  | cons_cons x _ ih =>
    obtain ⟨-, hrest⟩ := List.forall_mem_cons.mp hwhole
    rw [List.map_cons, List.prod_cons, List.map_cons, List.prod_cons]
    exact Nat.mul_le_mul_left _ (ih hrest)

theorem Compounds.sublist {splits kept : List StockSplit} (h : Compounds splits)
    (hkept : kept.Sublist splits) : Compounds kept where
  whole split hsplit := h.whole split (hkept.subset hsplit)
  sharesOut_fits :=
    (prod_wholePart_le (fun split => split.ratio.sharesOut)
      (fun split hsplit => (h.whole split hsplit).1) hkept).trans h.sharesOut_fits
  sharesIn_fits :=
    (prod_wholePart_le (fun split => split.ratio.sharesIn)
      (fun split hsplit => (h.whole split hsplit).2) hkept).trans h.sharesIn_fits

/-- The ratio over a period is the compound of the ratios over its parts, wherever it is cut. No split is
counted twice or left out, so that it is in the products of all splits of the period. -/
theorem ratioOver_cut (hsplits : Compounds h.splits.items) (hspans : period.Spans day) :
    h.splitsOver period = h.splitsOver (period.before day) ++ h.splitsOver (period.since day) ∧
      ∃ first second whole, h.ratioOver (period.before day) = .ok first ∧
        h.ratioOver (period.since day) = .ok second ∧ first.compound second = .ok whole ∧
        h.ratioOver period = .ok whole ∧
        whole.sharesOut.units =
          ((h.splitsOver period).map fun split => split.ratio.sharesOut.wholePart).prod * unit ∧
        whole.sharesIn.units =
          ((h.splitsOver period).map fun split => split.ratio.sharesIn.wholePart).prod * unit := by
  have within (part : HoldingPeriod) : Compounds (h.splitsOver part) :=
    hsplits.sublist List.filter_sublist
  obtain ⟨first, hfirst, hout₁, hin₁⟩ := h.ratioOver_whole (period.before day) (within _).whole rfl rfl
    (within _).sharesOut_fits (within _).sharesIn_fits
  obtain ⟨second, hsecond, hout₂, hin₂⟩ := h.ratioOver_whole (period.since day) (within _).whole rfl rfl
    (within _).sharesOut_fits (within _).sharesIn_fits
  obtain ⟨whole, hwhole, hout, hin⟩ := h.ratioOver_whole period (within _).whole rfl rfl
    (within _).sharesOut_fits (within _).sharesIn_fits
  refine ⟨h.splitsOver_cut hspans, first, second, whole, hfirst, hsecond, ?_, hwhole, hout, hin⟩
  have hfits := within period
  rw [h.splitsOver_cut hspans] at hout hin hfits
  have hout_fits := hfits.sharesOut_fits
  have hin_fits := hfits.sharesIn_fits
  rw [List.map_append, List.prod_append] at hout hin hout_fits hin_fits
  obtain ⟨sharesOut, hmulOut, hunitsOut⟩ := mul_whole_eq_ok hout₁ hout₂ hout_fits
  obtain ⟨sharesIn, hmulIn, hunitsIn⟩ := mul_whole_eq_ok hin₁ hin₂ hin_fits
  have hsame : whole = ⟨sharesOut, sharesIn⟩ := by
    obtain ⟨wholeOut, wholeIn⟩ := whole
    exact congrArg₂ SplitRatio.mk (ext_units (hout.trans hunitsOut.symm))
      (ext_units (hin.trans hunitsIn.symm))
  rw [hsame, SplitRatio.compound, hmulOut, hmulIn]
  rfl

/-- The period ends on the day that it is cut at, which is the day of the second split. Three for two before
that day and one for seven from it on make three for fourteen. -/
theorem ratioOver_cut_thinned :
    thinned.ratioOver ⟨.june 20, some (.june 22), .excludeEnd⟩ = .ok ⟨.whole 3, .whole 2⟩ ∧
      thinned.ratioOver ⟨.june 22, some (.june 22), .inclusive⟩ = .ok ⟨1, .whole 7⟩ ∧
      SplitRatio.compound ⟨.whole 3, .whole 2⟩ ⟨1, .whole 7⟩ = .ok ⟨.whole 3, .whole 14⟩ ∧
      thinned.ratioOver ⟨.june 20, some (.june 22), .inclusive⟩ = .ok ⟨.whole 3, .whole 14⟩ := by
  have hbefore : thinned.ratioOver ⟨.june 20, some (.june 22), .excludeEnd⟩ =
      .ok ⟨.whole 3, .whole 2⟩ := by decide +kernel
  have hsince : thinned.ratioOver ⟨.june 22, some (.june 22), .inclusive⟩ = .ok ⟨1, .whole 7⟩ := by
    decide +kernel
  obtain ⟨-, first, second, whole, hfirst, hsecond, hcompound, hwhole, hout, hin⟩ :=
    @ratioOver_cut thinned ⟨.june 20, some (.june 22), .inclusive⟩ (.june 22)
      ⟨by decide +kernel, by decide +kernel, by decide +kernel⟩ (by decide +kernel)
  obtain rfl := Except.ok.inj (hbefore.symm.trans hfirst)
  obtain rfl := Except.ok.inj (hsince.symm.trans hsecond)
  obtain rfl : whole = ⟨.whole 3, .whole 14⟩ := by
    obtain ⟨wholeOut, wholeIn⟩ := whole
    refine congrArg₂ SplitRatio.mk (ext_units (hout.trans ?_)) (ext_units (hin.trans ?_))
    · decide +kernel
    · decide +kernel
  exact ⟨hbefore, hsince, hcompound, hwhole⟩

end SplitHistory

end Lotbook
