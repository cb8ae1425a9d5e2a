/-
# Lotbook.Proofs.Candidates -- which purchases a strategy offers, and in which order

A matching by strategy offers a sale the entries of its account and security that have anything left
(`Ledger.IsUnsold`), and no others. They are sorted by keys, but the order is one of dates and prices: a
purchase comes before another if it is earlier, or later, cheaper or dearer (`LotStrategy.Before`). Sorting
leaves no purchase behind one that it comes before (`LotStrategy.sort_eq_ok`).
-/
import Lotbook.Proofs.Frames
import Lotbook.Proofs.Keys

namespace Lotbook

variable {l : Ledger} {account : AccountId} {security : SecurityId} {upTo : Date}

/-! ## Unsold purchases -/

namespace Ledger

/-- Whether an entry has shares of a security that may be sold in an account until a day. It has brought
them in until that day, not as a transfer, and some of them are in no lot. -/
def IsUnsold (l : Ledger) (account : AccountId) (security : SecurityId) (upTo : Date) (id : EntryId) : Prop :=
  ∃ e ∈ l.entry? id, e.isTransfer = false ∧ 0 < e.quantityOrZero ∧
    (∀ action ∈ l.action? e, action.isAcquisition = true) ∧
    (∃ t ∈ l.owner? id, t.account = account ∧ t.security = some security ∧ t.date ≤ upTo) ∧
    ∃ left ∈ (l.remainingShares id).toOption, 0 < left

instance (l : Ledger) (account : AccountId) (security : SecurityId) (upTo : Date) (id : EntryId) :
    Decidable (l.IsUnsold account security upTo id) := inferInstanceAs (Decidable (∃ e ∈ l.entry? id, _))

theorem mem_unsoldPurchases {purchases : List EntryId}
    (h : l.unsoldPurchases account security upTo = .ok purchases) {id : EntryId} :
    id ∈ purchases ↔ l.IsUnsold account security upTo id := by
  simp only [unsoldPurchases, bind_eq_ok_iff, pure_eq_ok_iff] at h
  obtain ⟨unsold, hunsold, rfl⟩ := h
  simp only [List.mem_map, List.mem_mergeSort, mem_filterM_iff hunsold, List.mem_filterMap,
    Option.ite_none_right_eq_some, Option.bind_eq_some_iff, bind_eq_ok_iff, pure_eq_ok_iff,
    Bool.and_eq_true, Bool.not_eq_true', decide_eq_true_eq, Option.all_eq_true, Option.some.injEq]
  constructor
  · rintro ⟨c, ⟨⟨e, he, ⟨⟨htransfer, hpos⟩, haction⟩, t, ⟨owner, howner, ht⟩, hbooked, rfl⟩, left, hleft,
      hpos_left⟩, rfl⟩
    have he : l.entry? e.id = some e := Register.mem_items_iff.mp he
    have ht : l.owner? e.id = some t := owner?_eq_some.mpr ⟨e, owner, he, howner, ht⟩
    exact ⟨e, he, htransfer, hpos, haction, ⟨t, ht, hbooked⟩, left, toOption_eq_some_iff.mpr hleft,
      hpos_left⟩
  · rintro ⟨e, he, htransfer, hpos, haction, ⟨t, ht, hbooked⟩, left, hleft, hpos_left⟩
    obtain rfl : e.id = id := id_of_entry he
    obtain ⟨e', owner, he', howner, ht⟩ := owner?_eq_some.mp ht
    obtain rfl : e = e' := Option.some.inj (he.symm.trans he')
    refine ⟨(t.date, e.id), ⟨⟨e, ?_, ⟨⟨htransfer, hpos⟩, haction⟩, t, ⟨owner, howner, ht⟩, hbooked, rfl⟩,
      left, ?_, hpos_left⟩, rfl⟩
    · exact Register.mem_items_iff.mpr he
    · exact toOption_eq_some_iff.mp hleft

/-- No purchase is unsold twice. -/
theorem nodup_unsoldPurchases {purchases : List EntryId}
    (h : l.unsoldPurchases account security upTo = .ok purchases) : purchases.Nodup := by
  simp only [unsoldPurchases, bind_eq_ok_iff, pure_eq_ok_iff] at h
  obtain ⟨unsold, hunsold, rfl⟩ := h
  rw [((List.mergeSort_perm unsold _).map Prod.snd).nodup_iff]
  apply List.Nodup.sublist ((sublist_of_filterM hunsold).map Prod.snd)
  rw [List.Nodup, List.pairwise_map]
  apply l.entries.sorted.filterMap
  intro e e' hlt c hc c' hc'
  simp only [Option.ite_none_right_eq_some, Option.bind_eq_some_iff, Option.some.injEq] at hc hc'
  obtain ⟨-, t, -, -, rfl⟩ := hc
  obtain ⟨-, t', -, -, rfl⟩ := hc'
  exact Ranked.ne_of_lt hlt

end Ledger

/-! ## The order of a strategy -/

namespace Ledger

/-- Whether a purchase is earlier than another, by date and then by identity. One without a transaction has
no date and is earlier than all that have. -/
def Earlier (l : Ledger) (p q : EntryId) : Prop :=
  match l.owner? p, l.owner? q with
  | none, none => p < q
  | none, some _ => True
  | some _, none => False
  | some t, some u => t.date < u.date ∨ t.date = u.date ∧ p < q

/-- Whether a purchase comes before another by price, or by date if they cost the same. One without a price
comes after all that have one. -/
def PricedBefore (l : Ledger) (ahead : Decimal → Decimal → Prop) (p q : EntryId) : Prop :=
  match l.unitPrice p, l.unitPrice q with
  | .ok (some a), .ok (some b) => ahead a b ∨ a = b ∧ l.Earlier p q
  | .ok (some _), .ok none => True
  | .ok none, .ok none => l.Earlier p q
  | _, _ => False

end Ledger

namespace LotStrategy

/-- Whether a sale consumes a purchase before another. -/
def Before (strategy : LotStrategy) (l : Ledger) (p q : EntryId) : Prop :=
  match strategy with
  | .firstIn => l.Earlier p q
  | .lastIn => l.Earlier q p
  | .lowestPrice => l.PricedBefore (· < ·) p q
  | .highestPrice => l.PricedBefore (· > ·) p q

end LotStrategy

/-! ## Keys in the order of a strategy -/

namespace Ledger

theorem precedes_datedRank {p q : EntryId} :
    precedes (l.datedRank p) (l.datedRank q) ↔ l.Earlier p q := by
  unfold datedRank Earlier
  cases l.owner? p with
  | none =>
    cases l.owner? q with
    | none =>
      show precedes (0 :: 0 :: 0 :: 0 :: rank p) (0 :: 0 :: 0 :: 0 :: rank q) ↔ _
      simp only [precedes_cons_self]
      exact Iff.rfl
    | some u => simp [precedes]
  | some t =>
    cases l.owner? q with
    | none => simp [precedes]
    | some u =>
      have hlength : (1 :: rank t.date).length = (1 :: rank u.date).length := rfl
      show precedes (1 :: rank t.date ++ rank p) (1 :: rank u.date ++ rank q) ↔ _
      rw [precedes_append hlength, precedes_cons_self, List.cons.injEq, rank_injective.eq_iff]
      simp only [true_and]
      exact Iff.rfl

theorem not_earlier_self {p : EntryId} : ¬ l.Earlier p p := by
  rw [← precedes_datedRank]
  exact precedes_irrefl _

instance (l : Ledger) (p q : EntryId) : Decidable (l.Earlier p q) :=
  decidable_of_iff (precedes (l.datedRank p) (l.datedRank q) = true) precedes_datedRank

theorem length_datedRank (l : Ledger) (p : EntryId) : (l.datedRank p).length = 5 := by
  unfold datedRank
  cases l.owner? p <;> rfl

/-- Prices are keys if their numbers tell them apart and are in their order. -/
theorem precedes_priced {number : Decimal → Int} {ahead : Decimal → Decimal → Prop}
    (hinjective : Function.Injective number) (hahead : ∀ a b, ahead a b ↔ number a < number b)
    {p q : EntryId} {a b : Option Decimal} (hp : l.unitPrice p = .ok a) (hq : l.unitPrice q = .ok b) :
    precedes (a.elim (1 :: 0 :: l.datedRank p) fun price => 0 :: number price :: l.datedRank p)
        (b.elim (1 :: 0 :: l.datedRank q) fun price => 0 :: number price :: l.datedRank q) ↔
      l.PricedBefore ahead p q := by
  rw [PricedBefore, hp, hq]
  cases a with
  | none =>
    cases b with
    | none => simp only [Option.elim, precedes_cons_self, precedes_datedRank]
    | some b => simp [precedes]
  | some a =>
    cases b with
    | none => simp [precedes]
    | some b =>
      simp only [Option.elim, precedes_cons_self]
      rw [precedes_cons, precedes_datedRank, hinjective.eq_iff, hahead]

theorem not_pricedBefore_self {ahead : Decimal → Decimal → Prop} (hahead : ∀ a, ¬ ahead a a)
    {p : EntryId} : ¬ l.PricedBefore ahead p p := by
  unfold PricedBefore
  cases l.unitPrice p with
  | error _ => exact id
  | ok price =>
    cases price with
    | none => exact not_earlier_self
    | some a =>
      intro h
      rcases h with h | ⟨-, h⟩
      · exact hahead a h
      · exact not_earlier_self h

instance (l : Ledger) (ahead : Decimal → Decimal → Prop) [∀ a b, Decidable (ahead a b)] (p q : EntryId) :
    Decidable (l.PricedBefore ahead p q) := by
  unfold PricedBefore
  split <;> infer_instance

end Ledger

namespace LotStrategy

instance (l : Ledger) (p q : EntryId) : (strategy : LotStrategy) → Decidable (strategy.Before l p q)
  | .firstIn => inferInstanceAs (Decidable (l.Earlier p q))
  | .lastIn => inferInstanceAs (Decidable (l.Earlier q p))
  | .lowestPrice => inferInstanceAs (Decidable (l.PricedBefore (· < ·) p q))
  | .highestPrice => inferInstanceAs (Decidable (l.PricedBefore (· > ·) p q))

theorem key_eq_ok {strategy : LotStrategy} {p : EntryId} {k : List Int} (h : strategy.key l p = .ok k) :
    ∃ price, (strategy.usesPrice = true → l.unitPrice p = .ok price) ∧
      k = strategy.sortKey l price p := by
  unfold key at h
  split at h
  · obtain ⟨price, hprice, hkey⟩ := bind_eq_ok_iff.mp h
    exact ⟨price, fun _ => hprice, (pure_eq_ok_iff.mp hkey).symm⟩
  · rename_i hunpriced
    exact ⟨none, fun huses => absurd huses hunpriced, (pure_eq_ok_iff.mp h).symm⟩

/-- The keys are in the order of the strategy. -/
theorem precedes_key {strategy : LotStrategy} {p q : EntryId} {j k : List Int}
    (hp : strategy.key l p = .ok j) (hq : strategy.key l q = .ok k) :
    precedes j k ↔ strategy.Before l p q := by
  obtain ⟨a, ha, rfl⟩ := key_eq_ok hp
  obtain ⟨b, hb, rfl⟩ := key_eq_ok hq
  cases strategy with
  | firstIn => exact Ledger.precedes_datedRank
  | lastIn =>
    have hlength := (l.length_datedRank p).trans (l.length_datedRank q).symm
    exact (precedes_map_neg hlength).trans Ledger.precedes_datedRank
  | lowestPrice =>
    have hinjective : Function.Injective Decimal.units := fun _ _ => Decimal.ext_units
    have hkey (price : Option Decimal) (id : EntryId) : sortKey .lowestPrice l price id =
        price.elim (1 :: 0 :: l.datedRank id) fun x => 0 :: x.units :: l.datedRank id := by
      cases price <;> rfl
    rw [hkey, hkey]
    exact Ledger.precedes_priced hinjective (fun _ _ => Iff.rfl) (ha rfl) (hb rfl)
  | highestPrice =>
    have hinjective : Function.Injective fun x : Decimal => -x.units :=
      fun _ _ h => Decimal.ext_units (Int.neg_inj.mp h)
    have hkey (price : Option Decimal) (id : EntryId) : sortKey .highestPrice l price id =
        price.elim (1 :: 0 :: l.datedRank id) fun x => 0 :: -x.units :: l.datedRank id := by
      cases price <;> rfl
    rw [hkey, hkey]
    exact Ledger.precedes_priced hinjective (fun _ _ => Int.neg_lt_neg_iff.symm) (ha rfl) (hb rfl)

theorem not_before_self (strategy : LotStrategy) (l : Ledger) (p : EntryId) :
    ¬ strategy.Before l p p := by
  cases strategy with
  | firstIn => exact Ledger.not_earlier_self
  | lastIn => exact Ledger.not_earlier_self
  | lowestPrice => exact Ledger.not_pricedBefore_self fun a => Int.lt_irrefl a.units
  | highestPrice => exact Ledger.not_pricedBefore_self fun a => Int.lt_irrefl a.units

theorem keyed_eq_ok {strategy : LotStrategy} {id : EntryId} {keyed : List Int × EntryId}
    (h : (do return (← strategy.key l id, id)) = Except.ok keyed) :
    strategy.key l keyed.2 = .ok keyed.1 ∧ keyed.2 = id := by
  simp only [bind_eq_ok_iff, pure_eq_ok_iff] at h
  obtain ⟨k, hk, rfl⟩ := h
  exact ⟨hk, rfl⟩

/-- Sorting leaves every purchase there, and none behind one that it comes before. -/
theorem sort_eq_ok {strategy : LotStrategy} {candidates sorted : List EntryId}
    (h : strategy.sort l candidates = .ok sorted) :
    sorted.Perm candidates ∧ sorted.Pairwise fun p q => ¬ strategy.Before l q p := by
  rw [sort] at h
  split at h
  · rename_i hlength
    obtain rfl : candidates = sorted := pure_eq_ok_iff.mp h
    refine ⟨.refl _, ?_⟩
    match candidates, hlength with
    | [], _ => exact .nil
    | [_], _ => exact List.pairwise_singleton ..
  · simp only [bind_eq_ok_iff, pure_eq_ok_iff] at h
    obtain ⟨-, -, keyed, hkeyed, rfl⟩ := h
    have hcandidates : keyed.map Prod.snd = candidates :=
      map_eq_of_mapM (fun _ _ hid => (keyed_eq_ok hid).2) hkeyed
    have hkey {c : List Int × EntryId} (hc : c ∈ keyed.mergeSort fun a b => !precedes b.1 a.1) :
        strategy.key l c.2 = .ok c.1 := by
      obtain ⟨id, -, hid⟩ := exists_of_mem_mapM hkeyed (List.mem_mergeSort.mp hc)
      exact (keyed_eq_ok hid).1
    constructor
    · rw [← hcandidates]
      exact (List.mergeSort_perm keyed _).map Prod.snd
    · rw [List.pairwise_map]
      apply (pairwise_mergeSort_keys Prod.fst keyed).imp_of_mem
      intro a b ha hb hsorted hbefore
      exact hsorted ((precedes_key (hkey hb) (hkey ha)).mpr hbefore)

/-- What comes before a purchase stands in front of it. -/
theorem mem_front {strategy : LotStrategy} {front back : List EntryId} {p q : EntryId}
    (h : (front ++ q :: back).Pairwise fun p q => ¬ strategy.Before l q p)
    (hp : p ∈ front ++ q :: back) (hpq : strategy.Before l p q) : p ∈ front := by
  rcases List.mem_append.mp hp with hfront | hrest
  · exact hfront
  · rcases List.mem_cons.mp hrest with rfl | hback
    · exact absurd hpq (not_before_self strategy l p)
    · obtain ⟨-, hsorted, -⟩ := List.pairwise_append.mp h
      exact absurd hpq (List.rel_of_pairwise_cons hsorted hback)

end LotStrategy

end Lotbook
