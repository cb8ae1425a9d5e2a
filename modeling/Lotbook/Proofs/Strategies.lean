/-
# Lotbook.Proofs.Strategies -- purchases consumed in the order of a strategy

A sale that is matched by a strategy takes from the unsold purchases of its account and security and from no
others, and from none of them as long as one that comes before it has anything more for the sale
(`Ledger.allocateByStrategy_in_order`). The order is the strategy's, whatever order the purchases were found
in. One purchase is left out: a sale that brings shares in itself is not matched with itself
(`Ledger.exists_passed_over`).
-/
import Lotbook.Proofs.Candidates
import Lotbook.Proofs.Matchings

namespace Lotbook.Ledger

variable {l l₁ : Ledger} {sale purchase : EntryId} {t : Transaction} {security : SecurityId}
  {strategy : LotStrategy} {a : Allocation}

/-- Whether nothing is rounded when a sale is matched with the purchases of a strategy, in its order. -/
def MatchesExactlyBy (l : Ledger) (sale : EntryId) (strategy : LotStrategy) : Prop :=
  ∀ t ∈ l.owner? sale, ∀ security ∈ t.security,
    ∀ purchases ∈ (l.unsoldPurchases t.account security t.date).toOption,
      ∀ sorted ∈ (strategy.sort l purchases).toOption, l.MatchesExactly sale sorted

instance (l : Ledger) (sale : EntryId) (strategy : LotStrategy) :
    Decidable (l.MatchesExactlyBy sale strategy) :=
  inferInstanceAs (Decidable (∀ t ∈ l.owner? sale, _))

/-- Whether a purchase has no more for a sale, as sums come out without rounding and as they are computed. -/
structure GivesNoMore (l : Ledger) (key : LotKey) (account : AccountId) : Prop where
  usedUp : l.UsedUp key account
  isExhausted : l.SuppliesExactly key account → l.IsExhausted key account

theorem IsUnsold.owned {account : AccountId} {upTo : Date} (h : l.IsUnsold account security upTo purchase) :
    ∃ buyer, l.owner? purchase = some buyer ∧ buyer.account = account := by
  obtain ⟨-, -, -, -, -, ⟨buyer, hbuyer, haccount, -⟩, -⟩ := h
  exact ⟨buyer, hbuyer, haccount⟩

/-- A purchase in the account of the sale gives what it has there only once, even if the sale is a transfer
within the account. -/
theorem IsUnsold.takesOnce {upTo : Date} (h : l.IsUnsold t.account security upTo purchase)
    (hseller : l.owner? sale = some t) : l.TakesOnce ⟨purchase, sale⟩ t.account where
  booked := isBookedIn_eq_true.mpr ⟨t, hseller, rfl⟩
  outward := .inl (isBookedIn_eq_true.mpr h.owned)

/-- A matching by a strategy offers what the sale lacks to the unsold purchases, in an order that the
strategy allows. -/
theorem allocateByStrategy_offered (h : l.Reachable) (hseller : l.owner? sale = some t)
    (hsecurity : t.security = some security) (hexact : l.MatchesExactlyBy sale strategy)
    (hmatch : l.allocateByStrategy sale strategy = .ok (.ok a, l₁)) :
    ∃ candidates, ∃ demand : Decimal, 0 ≤ demand ∧
      OfferedAll sale t.account l demand candidates a l₁ ∧
      (∀ p, p ∈ candidates ↔ l.IsUnsold t.account security t.date p) ∧
      candidates.Pairwise fun p q => ¬ strategy.Before l q p := by
  rw [allocateByStrategy, hseller] at hmatch
  simp only [hsecurity, bind_eq_ok_iff] at hmatch
  obtain ⟨purchases, hpurchases, sorted, hsorted, hmatch⟩ := hmatch
  obtain ⟨hperm, hpairwise⟩ := LotStrategy.sort_eq_ok hsorted
  have hexact : l.MatchesExactly sale sorted :=
    hexact t hseller security hsecurity purchases (toOption_eq_some_iff.mpr hpurchases) sorted
      (toOption_eq_some_iff.mpr hsorted)
  have hunsold : ∀ p, p ∈ sorted ↔ l.IsUnsold t.account security t.date p := by
    intro p
    rw [hperm.mem_iff, mem_unsoldPurchases hpurchases]
  have honce : ∀ p ∈ sorted, l.TakesOnce ⟨p, sale⟩ t.account := by
    intro p hp
    exact ((hunsold p).mp hp).takesOnce hseller
  have hplaced : l.Placed sale t.account := h.placed (isBookedIn_eq_true.mpr ⟨t, hseller, rfl⟩)
  obtain ⟨demand, hdemand, hoffered⟩ := hexact.offeredAll_of_takesOnce hplaced honce hmatch
  refine ⟨sorted, demand, ?_, hoffered, hunsold, hpairwise⟩
  show 0 ≤ demand.units
  rw [hdemand]
  exact Int.le_max_right ..

/-- What is used up after a matching gives no more, as it belongs to where it belonged before. -/
theorem IsUnsold.givesNoMore {account : AccountId} {upTo : Date}
    (h : l.IsUnsold account security upTo purchase) (hsame : l.SameButLots l₁)
    (hused : l₁.UsedUp ⟨purchase, sale⟩ account) : l₁.GivesNoMore ⟨purchase, sale⟩ account where
  usedUp := hused
  isExhausted hsupplies := by
    obtain ⟨buyer, hbuyer, -⟩ := h.owned
    have hbuyer₁ : l₁.owner? purchase = some buyer := by
      rw [hsame]
      exact hbuyer
    exact hused.isExhausted_of_owner hbuyer₁ hsupplies

/-- Lots are made or grow only for unsold purchases. A purchase other than the sale that comes before one
that gave shares has no more for the sale, and none of them has if the sale still lacks shares. -/
theorem allocateByStrategy_in_order (h : l.Reachable) (hseller : l.owner? sale = some t)
    (hsecurity : t.security = some security) (hexact : l.MatchesExactlyBy sale strategy)
    (hmatch : l.allocateByStrategy sale strategy = .ok (.ok a, l₁)) :
    (∀ key, l₁.lot? key ≠ l.lot? key →
        key.sale = sale ∧ l.IsUnsold t.account security t.date key.purchase) ∧
      ∀ p, l.IsUnsold t.account security t.date p → p ≠ sale →
        (∀ q, (l.lotOrEmpty ⟨q, sale⟩).adjustedShares < (l₁.lotOrEmpty ⟨q, sale⟩).adjustedShares →
            strategy.Before l p q → l₁.GivesNoMore ⟨p, sale⟩ t.account) ∧
          (a.unallocated ≠ 0 → l₁.GivesNoMore ⟨p, sale⟩ t.account) := by
  obtain ⟨candidates, demand, hdemand, hoffered, hunsold, hsorted⟩ :=
    allocateByStrategy_offered h hseller hsecurity hexact hmatch
  constructor
  · intro key hne
    obtain ⟨hsale, hcandidate⟩ := hoffered.candidate_of_named (hoffered.named_of_ne hne)
    exact ⟨hsale, (hunsold key.purchase).mp hcandidate⟩
  · intro p hp hself
    have hmem : p ∈ candidates := (hunsold p).mpr hp
    have honce : l.TakesOnce ⟨p, sale⟩ t.account := hp.takesOnce hseller
    constructor
    · intro q hgrew hbefore
      have hne : l₁.lot? ⟨q, sale⟩ ≠ l.lot? ⟨q, sale⟩ := by
        intro hsame
        rw [lotOrEmpty, lotOrEmpty, hsame] at hgrew
        exact Int.lt_irrefl _ hgrew
      -- what gave shares is named, so it is a candidate, and what comes before it stands in front of it
      have hnamed := hoffered.named_of_ne hne
      obtain ⟨-, hcandidate⟩ := hoffered.candidate_of_named hnamed
      obtain ⟨front, back, rfl, hfirst⟩ := List.eq_append_cons_of_mem hcandidate
      have hfront := LotStrategy.mem_front hsorted hmem hbefore
      apply hp.givesNoMore hoffered.sameButLots
      exact hoffered.usedUp_of_later honce rfl hfirst hnamed hfront hself
    · intro hleft
      have hpos : 0 < a.unallocated :=
        Decimal.pos_of_ne_zero (hoffered.unallocated_le hdemand).1 hleft
      apply hp.givesNoMore hoffered.sameButLots
      exact hoffered.usedUp_of_rest honce hdemand hpos hmem hself

/-- Twelve shares are sold of nine, three of which cost ten each, two five each and four nothing. -/
def soldByPrice : List Edit :=
  [.addSecurity "S", .addTransaction ⟨7⟩ (.june 20) (some ⟨1⟩),
    .addEntry ⟨2⟩ (some (-.whole 10)) (some (.whole 2)) none, .addTransaction ⟨7⟩ (.june 21) (some ⟨1⟩),
    .addEntry ⟨4⟩ (some (-.whole 30)) (some (.whole 3)) none, .addTransaction ⟨7⟩ (.june 22) (some ⟨1⟩),
    .addEntry ⟨6⟩ none (some (.whole 4)) none, .addTransaction ⟨7⟩ (.june 23) (some ⟨1⟩),
    .addEntry ⟨8⟩ none (some (-.whole 12)) none]

/-- The dearest of them are gone before the cheaper ones are touched, though they were not bought first. -/
theorem allocateByStrategy_in_order_soldByPrice :
    ∃ (l l₁ : Ledger) (t : Transaction) (a : Allocation), l.Reachable ∧ l.owner? ⟨9⟩ = some t ∧
      t.security = some ⟨1⟩ ∧ l.MatchesExactlyBy ⟨9⟩ .highestPrice ∧
      l.allocateByStrategy ⟨9⟩ .highestPrice = .ok (.ok a, l₁) ∧
      l₁.lot? ⟨⟨5⟩, ⟨9⟩⟩ ≠ l.lot? ⟨⟨5⟩, ⟨9⟩⟩ ∧ l.IsUnsold t.account ⟨1⟩ t.date ⟨5⟩ ∧
      (l.lotOrEmpty ⟨⟨3⟩, ⟨9⟩⟩).adjustedShares < (l₁.lotOrEmpty ⟨⟨3⟩, ⟨9⟩⟩).adjustedShares ∧
      LotStrategy.Before .highestPrice l ⟨5⟩ ⟨3⟩ ∧ l₁.GivesNoMore ⟨⟨5⟩, ⟨9⟩⟩ t.account ∧
      a.unallocated = .whole 3 ∧ l₁.GivesNoMore ⟨⟨7⟩, ⟨9⟩⟩ t.account := by
  have hcheck : (((Ledger.new .standard).performAll soldByPrice).toOption.any fun l =>
      (l.allocateByStrategy ⟨9⟩ .highestPrice).toOption.any fun r => r.1.toOption.any fun a =>
        (l.owner? ⟨9⟩).any fun t => t.security = some ⟨1⟩ ∧ l.MatchesExactlyBy ⟨9⟩ .highestPrice ∧
          r.2.lot? ⟨⟨5⟩, ⟨9⟩⟩ ≠ l.lot? ⟨⟨5⟩, ⟨9⟩⟩ ∧ l.IsUnsold t.account ⟨1⟩ t.date ⟨7⟩ ∧
          (l.lotOrEmpty ⟨⟨3⟩, ⟨9⟩⟩).adjustedShares < (r.2.lotOrEmpty ⟨⟨3⟩, ⟨9⟩⟩).adjustedShares ∧
          LotStrategy.Before .highestPrice l ⟨5⟩ ⟨3⟩ ∧ a.unallocated = .whole 3) = true := by
    simp only [allocateByStrategy, unsoldPurchases, LotStrategy.sort, MatchesExactlyBy, mergeSort_keys]
    decide +kernel
  obtain ⟨l, hl, hcheck⟩ := exists_ok_of_any hcheck
  obtain ⟨⟨outcome, l₁⟩, hmatch, hcheck⟩ := exists_ok_of_any hcheck
  obtain ⟨a, rfl, hcheck⟩ := exists_ok_of_any hcheck
  obtain ⟨t, hseller, hcheck⟩ := (Option.any_eq_true _ _).mp hcheck
  obtain ⟨hsecurity, hexact, hchanged, hlast, hgrew, hbefore, hleft⟩ := of_decide_eq_true hcheck
  have hreachable := (Reachable.new .standard).performAll hl
  obtain ⟨hmade, hspent⟩ := allocateByStrategy_in_order hreachable hseller hsecurity hexact hmatch
  have hdearest := (hmade _ hchanged).2
  have hsome : a.unallocated ≠ 0 := by
    rw [hleft]
    decide
  exact ⟨l, l₁, t, a, hreachable, hseller, hsecurity, hexact, hmatch, hchanged, hdearest, hgrew, hbefore,
    (hspent _ hdearest (by decide)).1 _ hgrew hbefore, hleft, (hspent _ hlast (by decide)).2 hsome⟩

/-- One share is brought in by an entry that had five shares too few covered. -/
def boughtOversold : List Edit :=
  [.addSecurity "S", .addTransaction ⟨8⟩ (.june 20) (some ⟨1⟩),
    .addEntry ⟨2⟩ none (some (.whole 10)) none, .addTransaction ⟨7⟩ (.june 21) (some ⟨1⟩),
    .addEntry ⟨4⟩ none (some 1) none, .insertLot ⟨⟨3⟩, ⟨5⟩⟩, .setLotShares ⟨⟨3⟩, ⟨5⟩⟩ (-.whole 5)]

/-- An entry that is matched as a sale is no purchase for itself, even if it is unsold and shares are left
that no other purchase gives. -/
theorem exists_passed_over :
    ∃ (l l₁ : Ledger) (t : Transaction) (a : Allocation), l.Reachable ∧ l.owner? ⟨5⟩ = some t ∧
      t.security = some ⟨1⟩ ∧ l.MatchesExactlyBy ⟨5⟩ .firstIn ∧
      l.allocateByStrategy ⟨5⟩ .firstIn = .ok (.ok a, l₁) ∧ l.IsUnsold t.account ⟨1⟩ t.date ⟨5⟩ ∧
      a.unallocated ≠ 0 ∧ l₁.SuppliesExactly ⟨⟨5⟩, ⟨5⟩⟩ t.account ∧
      ¬ l₁.IsExhausted ⟨⟨5⟩, ⟨5⟩⟩ t.account := by
  have hcheck : (((Ledger.new .standard).performAll boughtOversold).toOption.any fun l =>
      (l.allocateByStrategy ⟨5⟩ .firstIn).toOption.any fun r => r.1.toOption.any fun a =>
        (l.owner? ⟨5⟩).any fun t => t.security = some ⟨1⟩ ∧ l.MatchesExactlyBy ⟨5⟩ .firstIn ∧
          l.IsUnsold t.account ⟨1⟩ t.date ⟨5⟩ ∧ a.unallocated ≠ 0 ∧
          r.2.SuppliesExactly ⟨⟨5⟩, ⟨5⟩⟩ t.account ∧
          r.2.backing ⟨⟨5⟩, ⟨5⟩⟩ t.account = .ok 1 ∧
          (r.2.lotOrEmpty ⟨⟨5⟩, ⟨5⟩⟩).adjustedShares = 0) = true := by
    decide +kernel
  obtain ⟨l, hl, hcheck⟩ := exists_ok_of_any hcheck
  obtain ⟨⟨outcome, l₁⟩, hmatch, hcheck⟩ := exists_ok_of_any hcheck
  obtain ⟨a, rfl, hcheck⟩ := exists_ok_of_any hcheck
  obtain ⟨t, hseller, hcheck⟩ := (Option.any_eq_true _ _).mp hcheck
  obtain ⟨hsecurity, hexact, hunsold, hleft, hsupplies, hbacking, hshares⟩ := of_decide_eq_true hcheck
  refine ⟨l, l₁, t, a, (Reachable.new .standard).performAll hl, hseller, hsecurity, hexact, hmatch,
    hunsold, hleft, hsupplies, ?_⟩
  rintro ⟨backed, hbacked, hle⟩
  obtain rfl : 1 = backed := Except.ok.inj (hbacking.symm.trans hbacked)
  rw [hshares] at hle
  exact absurd hle (by decide)

end Lotbook.Ledger
