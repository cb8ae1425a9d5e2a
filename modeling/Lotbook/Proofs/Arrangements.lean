/-
# Lotbook.Proofs.Arrangements -- one order for the same purchases

Purchases are compared two at a time: by date, or by price if both have one, and by identity in the end
(`LotStrategy.comparison`). Of two purchases whose prices can be told one always comes before the other, and
only a purchase itself compares as equal to it. So the same purchases can be arranged in one way only, in
whatever order they were found and however they are sorted, and a sale that is matched by a strategy takes
from them in that order (`LotStrategy.sort_canonical`).
-/
import Lotbook.Proofs.Runs
import Lotbook.Proofs.Strategies

namespace Lotbook

/-! ## Comparing keys and prices -/

namespace Ranked

variable {κ : Type} [Ranked κ]

theorem not_le {a b : κ} : ¬ a ≤ b ↔ b < a := not_iff_comm.mp not_lt

theorem le_refl (a : κ) : a ≤ a := not_lt.mp (lt_irrefl a)

theorem le_antisymm {a b : κ} (hab : a ≤ b) (hba : b ≤ a) : a = b := by
  rcases lt_or_eq_or_gt a b with h | h | h
  · exact absurd h (not_lt.mpr hba)
  · exact h
  · exact absurd h (not_lt.mpr hab)

theorem le_total (a b : κ) : a ≤ b ∨ b ≤ a := by
  by_contra h
  obtain ⟨hab, hba⟩ := not_or.mp h
  exact lt_irrefl a (lt_trans (not_le.mp hba) (not_le.mp hab))

variable [DecidableEq κ] {a b : κ}

theorem compare_eq_eq : compareOfLessAndEq a b = .eq ↔ a = b :=
  compareOfLessAndEq_eq_eq le_refl not_le

theorem swap_compare : (compareOfLessAndEq a b).swap = compareOfLessAndEq b a :=
  (compareOfLessAndEq_eq_swap le_antisymm le_total not_le).symm

end Ranked

namespace Decimal

variable {a b : Decimal}

theorem compare_eq_eq : compareOfLessAndEq a b = .eq ↔ a = b := by
  apply compareOfLessAndEq_eq_eq
  · exact fun a => Int.le_refl a.units
  · exact Int.not_le

theorem swap_compare : (compareOfLessAndEq a b).swap = compareOfLessAndEq b a := by
  symm
  apply compareOfLessAndEq_eq_swap
  · exact fun hab hba => ext_units (Int.le_antisymm hab hba)
  · exact fun a b => Int.le_total a.units b.units
  · exact Int.not_le

end Decimal

variable {l : Ledger} {strategy : LotStrategy} {p q : EntryId} {candidates sorted : List EntryId}

/-! ## Comparing purchases -/

namespace Ledger

/-- How two purchases compare by date, those without a date first, and then by identity. -/
def datedComparison (l : Ledger) (p q : EntryId) : Ordering :=
  let byDate : Ordering := match l.owner? p, l.owner? q with
    | none, none => .eq
    | none, some _ => .lt
    | some _, none => .gt
    | some t, some u => compareOfLessAndEq t.date u.date
  byDate.then (compareOfLessAndEq p q)

/-- How two purchases compare by price, those without a price last, and then by date. -/
def pricedComparison (l : Ledger) (prices : Decimal → Decimal → Ordering) (p q : EntryId) :
    Except ArithmeticFault Ordering := do
  let byPrice : Ordering := match ← l.unitPrice p, ← l.unitPrice q with
    | some a, some b => prices a b
    | some _, none => .lt
    | none, some _ => .gt
    | none, none => .eq
  return byPrice.then (l.datedComparison p q)

theorem datedComparison_eq_lt : l.datedComparison p q = .lt ↔ l.Earlier p q := by
  unfold datedComparison Earlier
  rw [Ordering.then_eq_lt, compareOfLessAndEq_eq_lt]
  cases l.owner? p with
  | none => cases l.owner? q <;> simp
  | some t =>
    cases l.owner? q with
    | none => simp
    | some u => simp only [compareOfLessAndEq_eq_lt, Ranked.compare_eq_eq]

theorem swap_datedComparison : (l.datedComparison p q).swap = l.datedComparison q p := by
  unfold datedComparison
  rw [Ordering.swap_then, Ranked.swap_compare]
  cases l.owner? p with
  | none => cases l.owner? q <;> rfl
  | some t =>
    cases l.owner? q with
    | none => rfl
    | some u => simp only [Ranked.swap_compare]

theorem pricedComparison_eq_lt {prices : Decimal → Decimal → Ordering} {ahead : Decimal → Decimal → Prop}
    (hahead : ∀ a b, prices a b = .lt ↔ ahead a b) (hsame : ∀ a b, prices a b = .eq ↔ a = b) :
    l.pricedComparison prices p q = .ok .lt ↔ l.PricedBefore ahead p q := by
  unfold pricedComparison PricedBefore
  cases l.unitPrice p with
  | error fault => simp [Bind.bind, Except.bind]
  | ok a =>
    cases l.unitPrice q with
    | error fault => simp [Bind.bind, Except.bind]
    | ok b =>
      cases a <;> cases b <;>
        simp [Bind.bind, Except.bind, Ordering.then_eq_lt, datedComparison_eq_lt, hahead, hsame]

theorem pricedComparison_swap {prices : Decimal → Decimal → Ordering}
    (hswap : ∀ a b, (prices a b).swap = prices b a) {o : Ordering}
    (h : l.pricedComparison prices p q = .ok o) : l.pricedComparison prices q p = .ok o.swap := by
  simp only [pricedComparison, bind_eq_ok_iff, pure_eq_ok_iff] at h ⊢
  obtain ⟨a, ha, b, hb, rfl⟩ := h
  refine ⟨b, hb, a, ha, ?_⟩
  rw [Ordering.swap_then, swap_datedComparison]
  cases a with
  | none => cases b <;> rfl
  | some a =>
    cases b with
    | none => rfl
    | some b => simp only [hswap]

end Ledger

namespace LotStrategy

/-- How two purchases compare: the one that a sale consumes first is the lesser. -/
def comparison (strategy : LotStrategy) (l : Ledger) (p q : EntryId) : Except ArithmeticFault Ordering :=
  match strategy with
  | .firstIn => .ok (l.datedComparison p q)
  | .lastIn => .ok (l.datedComparison q p)
  | .lowestPrice => l.pricedComparison (fun a b => compareOfLessAndEq a b) p q
  | .highestPrice => l.pricedComparison (fun a b => compareOfLessAndEq b a) p q

theorem comparison_eq_lt : strategy.comparison l p q = .ok .lt ↔ strategy.Before l p q := by
  cases strategy with
  | firstIn =>
    show Except.ok (l.datedComparison p q) = .ok .lt ↔ l.Earlier p q
    rw [Except.ok.injEq, Ledger.datedComparison_eq_lt]
  | lastIn =>
    show Except.ok (l.datedComparison q p) = .ok .lt ↔ l.Earlier q p
    rw [Except.ok.injEq, Ledger.datedComparison_eq_lt]
  | lowestPrice =>
    exact Ledger.pricedComparison_eq_lt (fun _ _ => compareOfLessAndEq_eq_lt)
      (fun _ _ => Decimal.compare_eq_eq)
  | highestPrice =>
    exact Ledger.pricedComparison_eq_lt (fun _ _ => compareOfLessAndEq_eq_lt)
      (fun _ _ => Decimal.compare_eq_eq.trans eq_comm)

/-- Two purchases compare the other way around if they change places. -/
theorem comparison_swap {o : Ordering} (h : strategy.comparison l p q = .ok o) :
    strategy.comparison l q p = .ok o.swap := by
  cases strategy with
  | firstIn =>
    obtain rfl : l.datedComparison p q = o := Except.ok.inj h
    exact congrArg Except.ok Ledger.swap_datedComparison.symm
  | lastIn =>
    obtain rfl : l.datedComparison q p = o := Except.ok.inj h
    exact congrArg Except.ok Ledger.swap_datedComparison.symm
  | lowestPrice => exact Ledger.pricedComparison_swap (fun _ _ => Decimal.swap_compare) h
  | highestPrice => exact Ledger.pricedComparison_swap (fun _ _ => Decimal.swap_compare) h

theorem comparison_eq_gt : strategy.comparison l p q = .ok .gt ↔ strategy.Before l q p := by
  rw [← comparison_eq_lt]
  exact ⟨comparison_swap, comparison_swap⟩

end LotStrategy

/-! ## One of two purchases comes first -/

theorem Ledger.datedRank_injective (l : Ledger) : Function.Injective l.datedRank := by
  intro p q h
  apply rank_injective
  -- the identity is the end of the rank, and it takes one number in both
  exact List.append_inj_right' h rfl

namespace LotStrategy

/-- No two purchases have the same key, whatever they cost. -/
theorem eq_of_sortKey_eq {a b : Option Decimal} (h : strategy.sortKey l a p = strategy.sortKey l b q) :
    p = q := by
  apply l.datedRank_injective
  cases strategy with
  | firstIn => exact h
  | lastIn => exact List.map_injective_iff.mpr neg_injective h
  | lowestPrice | highestPrice =>
    -- keys with a price and keys without one differ in their first numbers
    cases a <;> cases b <;> simp_all [sortKey]

/-- Where prices matter, a purchase has a key if its price can be told. -/
theorem exists_key (h : strategy.usesPrice = true → ∃ price, l.unitPrice p = .ok price) :
    ∃ k, strategy.key l p = .ok k := by
  unfold key
  split
  · rename_i huses
    obtain ⟨price, hprice⟩ := h huses
    exact ⟨_, by rw [hprice]; rfl⟩
  · exact ⟨_, rfl⟩

theorem before_or_eq_or_before {j k : List Int} (hp : strategy.key l p = .ok j)
    (hq : strategy.key l q = .ok k) : strategy.Before l p q ∨ p = q ∨ strategy.Before l q p := by
  rcases precedes_or_eq_or_precedes j k with h | rfl | h
  · exact .inl ((precedes_key hp hq).mp h)
  · -- equal prices and equal dates are not enough for one key
    obtain ⟨a, -, ha⟩ := key_eq_ok hp
    obtain ⟨b, -, hb⟩ := key_eq_ok hq
    exact .inr (.inl (eq_of_sortKey_eq (ha.symm.trans hb)))
  · exact .inr (.inr ((precedes_key hq hp).mp h))

/-! ## One arrangement -/

/-- Different purchases of which none stands behind one that it comes before are in strict order. -/
theorem pairwise_before {xs : List EntryId} (hkeys : ∀ p ∈ xs, ∃ k, strategy.key l p = .ok k)
    (hnodup : xs.Nodup) (h : xs.Pairwise fun p q => ¬ strategy.Before l q p) :
    xs.Pairwise (strategy.Before l) := by
  apply (h.and hnodup).imp_of_mem
  rintro p q hp hq ⟨hnot, hne⟩
  obtain ⟨j, hj⟩ := hkeys p hp
  obtain ⟨k, hk⟩ := hkeys q hq
  rcases before_or_eq_or_before hj hk with hbefore | heq | hbefore
  · exact hbefore
  · exact absurd heq hne
  · exact absurd hbefore hnot

/-- There is no second way to leave no purchase behind one that it comes before. -/
theorem eq_of_arranged {xs ys : List EntryId} (hkeys : ∀ p ∈ xs, ∃ k, strategy.key l p = .ok k)
    (hxs : xs.Pairwise fun p q => ¬ strategy.Before l q p)
    (hys : ys.Pairwise fun p q => ¬ strategy.Before l q p) (h : xs.Perm ys) : xs = ys := by
  refine List.Perm.eq_of_pairwise ?_ hxs hys h
  intro p q hp hq hqp hpq
  obtain ⟨j, hj⟩ := hkeys p hp
  obtain ⟨k, hk⟩ := hkeys q (h.mem_iff.mpr hq)
  rcases before_or_eq_or_before hj hk with hbefore | rfl | hbefore
  · exact absurd hbefore hpq
  · rfl
  · exact absurd hbefore hqp

theorem exists_sort_eq_ok (h : ∀ p ∈ candidates, ∃ k, strategy.key l p = .ok k) :
    ∃ sorted, strategy.sort l candidates = .ok sorted := by
  have hkeyed : ∀ p ∈ candidates,
      ∃ keyed : List Int × EntryId, (do return (← strategy.key l p, p)) = Except.ok keyed ∧ keyed.2 = id p := by
    intro p hp
    obtain ⟨k, hk⟩ := h p hp
    exact ⟨(k, p), by rw [hk]; rfl, rfl⟩
  obtain ⟨keyed, hkeyed, -⟩ := exists_mapM_eq_ok hkeyed
  unfold sort
  split
  · exact ⟨candidates, rfl⟩
  · rw [survey_eq_ok h, hkeyed]
    exact ⟨_, rfl⟩

/-- The order in which purchases were found is not seen in the order that they are sorted into. -/
theorem sort_of_perm {permuted : List EntryId} (hkeys : ∀ p ∈ candidates, ∃ k, strategy.key l p = .ok k)
    (hsorted : strategy.sort l candidates = .ok sorted) (h : permuted.Perm candidates) :
    strategy.sort l permuted = .ok sorted := by
  have hkeys' : ∀ p ∈ permuted, ∃ k, strategy.key l p = .ok k := fun p hp => hkeys p (h.mem_iff.mp hp)
  obtain ⟨other, hother⟩ := exists_sort_eq_ok hkeys'
  obtain ⟨hperm, hpairwise⟩ := sort_eq_ok hsorted
  obtain ⟨hperm', hpairwise'⟩ := sort_eq_ok hother
  rw [hother]
  apply congrArg
  apply eq_of_arranged (fun p hp => hkeys' p (hperm'.mem_iff.mp hp)) hpairwise' hpairwise
  exact hperm'.trans (h.trans hperm.symm)

end LotStrategy

namespace Ledger

variable {sale : EntryId} {t : Transaction} {security : SecurityId} {purchases : List EntryId}

/-- However the unsold purchases are collected, they are a rearrangement of those that are offered. -/
theorem unsoldPurchases_perm {account : AccountId} {upTo : Date} (hnodup : candidates.Nodup)
    (hpurchases : l.unsoldPurchases account security upTo = .ok purchases)
    (h : ∀ p, p ∈ candidates ↔ l.IsUnsold account security upTo p) : purchases.Perm candidates := by
  rw [List.perm_ext_iff_of_nodup (nodup_unsoldPurchases hpurchases) hnodup]
  intro p
  rw [mem_unsoldPurchases hpurchases, h]

theorem allocateByStrategy_eq (hseller : l.owner? sale = some t) (hsecurity : t.security = some security)
    (hpurchases : l.unsoldPurchases t.account security t.date = .ok purchases)
    (hsorted : strategy.sort l purchases = .ok sorted) :
    l.allocateByStrategy sale strategy = l.allocateLots sale sorted := by
  simp only [allocateByStrategy, hseller, hsecurity, hpurchases, hsorted, Bind.bind, Except.bind]

end Ledger

namespace LotStrategy

/-- Different purchases whose prices can be told, where they matter, are sorted into the strict order of the
strategy. Found in any other order they are sorted into the same, and comparing them leaves no other. A sale
whose unsold purchases they are is matched with them in that order. -/
theorem sort_canonical (hnodup : candidates.Nodup)
    (hpriced : strategy.usesPrice = true → ∀ p ∈ candidates, ∃ price, l.unitPrice p = .ok price) :
    ∃ sorted, strategy.sort l candidates = .ok sorted ∧ sorted.Perm candidates ∧
      sorted.Pairwise (strategy.Before l) ∧
      (∀ permuted, permuted.Perm candidates → strategy.sort l permuted = .ok sorted) ∧
      (∀ arranged, arranged.Perm candidates →
        (arranged.Pairwise fun p q => strategy.comparison l p q ≠ .ok .gt) → arranged = sorted) ∧
      ∀ sale t security purchases, l.owner? sale = some t → t.security = some security →
        l.unsoldPurchases t.account security t.date = .ok purchases →
        (∀ p, p ∈ candidates ↔ l.IsUnsold t.account security t.date p) →
        l.allocateByStrategy sale strategy = l.allocateLots sale sorted := by
  have hkeys : ∀ p ∈ candidates, ∃ k, strategy.key l p = .ok k :=
    fun p hp => exists_key fun huses => hpriced huses p hp
  obtain ⟨sorted, hsorted⟩ := exists_sort_eq_ok hkeys
  obtain ⟨hperm, hpairwise⟩ := sort_eq_ok hsorted
  refine ⟨sorted, hsorted, hperm, ?strict, ?permuted, ?arranged, ?matched⟩
  case strict =>
    exact pairwise_before (fun p hp => hkeys p (hperm.mem_iff.mp hp)) (hperm.nodup_iff.mpr hnodup) hpairwise
  case permuted => exact fun permuted h => sort_of_perm hkeys hsorted h
  case arranged =>
    intro arranged h hcompared
    have hpairwise' : arranged.Pairwise fun p q => ¬ strategy.Before l q p :=
      hcompared.imp fun hne hbefore => hne (comparison_eq_gt.mpr hbefore)
    exact eq_of_arranged (fun p hp => hkeys p (h.mem_iff.mp hp)) hpairwise' hpairwise (h.trans hperm.symm)
  case matched =>
    intro sale t security purchases hseller hsecurity hpurchases hunsold
    have hcollected := Ledger.unsoldPurchases_perm hnodup hpurchases hunsold
    exact Ledger.allocateByStrategy_eq hseller hsecurity hpurchases (sort_of_perm hkeys hsorted hcollected)

open Ledger

/-- Three purchases of which two cost the same, the one of them that was entered later being the earlier, and
a sale. -/
def boughtAlike : List Edit :=
  [.addSecurity "S", .addTransaction ⟨7⟩ (.june 21) (some ⟨1⟩),
    .addEntry ⟨2⟩ (some (-.whole 10)) (some (.whole 2)) none, .addTransaction ⟨7⟩ (.june 20) (some ⟨1⟩),
    .addEntry ⟨4⟩ (some (-.whole 5)) (some 1) none, .addTransaction ⟨7⟩ (.june 22) (some ⟨1⟩),
    .addEntry ⟨6⟩ (some (-.whole 30)) (some (.whole 3)) none, .addTransaction ⟨7⟩ (.june 23) (some ⟨1⟩),
    .addEntry ⟨8⟩ none (some (-.whole 4)) none]

/-- The dearest comes first, of those that cost the same the earlier, and what is no entry and so has no price
comes last. -/
theorem sort_canonical_boughtAlike :
    ∃ (l : Ledger) (t : Transaction), l.Reachable ∧
      (∀ p : EntryId, p ∈ [⟨99⟩, ⟨3⟩, ⟨7⟩, ⟨5⟩] → ∃ price, l.unitPrice p = .ok price) ∧
      sort .highestPrice l [⟨99⟩, ⟨3⟩, ⟨7⟩, ⟨5⟩] = .ok [⟨7⟩, ⟨5⟩, ⟨3⟩, ⟨99⟩] ∧
      sort .highestPrice l [⟨5⟩, ⟨99⟩, ⟨7⟩, ⟨3⟩] = .ok [⟨7⟩, ⟨5⟩, ⟨3⟩, ⟨99⟩] ∧
      [⟨7⟩, ⟨5⟩, ⟨3⟩, ⟨99⟩].Pairwise (Before .highestPrice l) ∧
      l.owner? ⟨9⟩ = some t ∧ t.security = some ⟨1⟩ ∧
      (∀ p, p ∈ [⟨3⟩, ⟨7⟩, ⟨5⟩] ↔ l.IsUnsold t.account ⟨1⟩ t.date p) ∧
      l.allocateByStrategy ⟨9⟩ .highestPrice = l.allocateLots ⟨9⟩ [⟨7⟩, ⟨5⟩, ⟨3⟩] := by
  have hcheck : (((Ledger.new .standard).performAll boughtAlike).toOption.any fun l =>
      (l.owner? ⟨9⟩).any fun t => t.security = some ⟨1⟩ ∧
        (∀ p ∈ ([⟨99⟩, ⟨3⟩, ⟨7⟩, ⟨5⟩] : List EntryId), (l.unitPrice p).toOption.isSome) ∧
        (([⟨7⟩, ⟨5⟩, ⟨3⟩, ⟨99⟩] : List EntryId).Pairwise fun p q =>
          comparison .highestPrice l p q ≠ .ok .gt) ∧
        l.unsoldPurchases t.account ⟨1⟩ t.date = .ok [⟨5⟩, ⟨3⟩, ⟨7⟩]) = true := by
    simp only [unsoldPurchases, mergeSort_keys]
    decide +kernel
  obtain ⟨l, hl, hcheck⟩ := exists_ok_of_any hcheck
  obtain ⟨t, hseller, hcheck⟩ := (Option.any_eq_true _ _).mp hcheck
  obtain ⟨hsecurity, hpriced, hcompared, hpurchases⟩ := of_decide_eq_true hcheck
  have hpriced : ∀ p : EntryId, p ∈ [⟨99⟩, ⟨3⟩, ⟨7⟩, ⟨5⟩] → ∃ price, l.unitPrice p = .ok price := by
    intro p hp
    obtain ⟨price, hprice⟩ := Option.isSome_iff_exists.mp (hpriced p hp)
    exact ⟨price, toOption_eq_some_iff.mp hprice⟩
  have hunsold : ∀ p : EntryId, p ∈ [⟨3⟩, ⟨7⟩, ⟨5⟩] ↔ l.IsUnsold t.account ⟨1⟩ t.date p := by
    intro p
    rw [← mem_unsoldPurchases hpurchases]
    exact (show ([⟨3⟩, ⟨7⟩, ⟨5⟩] : List EntryId).Perm [⟨5⟩, ⟨3⟩, ⟨7⟩] by decide).mem_iff
  obtain ⟨sorted, hsorted, -, hstrict, hpermuted, harranged, -⟩ :=
    sort_canonical (by decide) fun _ => hpriced
  -- what comparing leaves in order is the result, so that nothing needs to be sorted here
  obtain rfl := harranged [⟨7⟩, ⟨5⟩, ⟨3⟩, ⟨99⟩] (by decide) hcompared
  obtain ⟨three, -, -, -, -, harranged, hmatched⟩ :=
    @sort_canonical l .highestPrice [⟨3⟩, ⟨7⟩, ⟨5⟩] (by decide)
      fun _ p hp => hpriced p (List.mem_cons_of_mem _ hp)
  obtain rfl := harranged [⟨7⟩, ⟨5⟩, ⟨3⟩] (by decide) (hcompared.sublist (by decide))
  refine ⟨l, t, (Reachable.new .standard).performAll hl, hpriced, hsorted, hpermuted _ (by decide), hstrict,
    hseller, hsecurity, hunsold, ?_⟩
  exact hmatched ⟨9⟩ t ⟨1⟩ _ hseller hsecurity hpurchases hunsold

end LotStrategy

end Lotbook
