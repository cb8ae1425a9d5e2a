/-
# Lotbook.Proofs.Holdings -- what a purchase has left in every account

In its own account a purchase has left what no lot takes of it, wherever the sales of the lots are
booked. In any other account it has left what transfers moved there, less what was sold or moved on from
there (`Ledger.remainingForAccount`). So what is sold or moved on in another account is taken off twice,
there and at home, where the transfer that brought it there has been taken off before. What is left in
all accounts comes to less than what was bought and not sold by exactly that
(`Ledger.remaining_in_all_accounts`).
-/
import Lotbook.Proofs.LotsFollow
import Lotbook.Proofs.Transfers
import Mathlib.Algebra.BigOperators.Group.Finset.Piecewise

namespace Lotbook

open Decimal

/-- The partial sums after the first term are those of the others. -/
theorem Decimal.representable_of_cons {x : Decimal} {xs : List Decimal} {a : Int}
    (h : ∀ u ∈ ((x :: xs).map units).scanl (· + ·) a, Representable u) :
    Representable (a + x.units) ∧
      ∀ u ∈ (xs.map units).scanl (· + ·) (a + x.units), Representable u := by
  rw [List.map_cons, List.scanl_cons] at h
  have hrest : ∀ u ∈ (xs.map units).scanl (· + ·) (a + x.units), Representable u :=
    fun u hu => h u (List.mem_cons_of_mem _ hu)
  refine ⟨hrest _ ?_, hrest⟩
  cases xs <;> simp

namespace Ledger

variable {l : Ledger} {account : AccountId}

/-! ## What is counted -/

/-- Whether the sale of a lot is a transfer to an account. -/
def isMovedTo (l : Ledger) (account : AccountId) (lot : Lot) : Bool :=
  (l.otherLeg? lot.sale).any (l.isBookedIn account)

/-- Whether the sale of a lot is booked in an account. -/
def isSoldIn (l : Ledger) (account : AccountId) (lot : Lot) : Bool := l.isBookedIn account lot.sale

/-- Whether the sale of a lot is no transfer. -/
def isOutright (l : Ledger) (lot : Lot) : Bool := (l.otherLeg? lot.sale).isNone

/-- The shares that some lots take of a purchase. -/
def takenBy (l : Ledger) (purchase : EntryId) (which : Lot → Bool) : Int :=
  l.lotSum fun lot => if lot.purchase = purchase ∧ which lot then lot.purchaseShares.units else 0

/-- What a lot adds to the shares that its purchase has in an account other than its own. -/
def moves (l : Ledger) (account : AccountId) (lot : Lot) : List Decimal :=
  (if l.isMovedTo account lot then [lot.purchaseShares] else []) ++
    if l.isSoldIn account lot then [-lot.purchaseShares] else []

/-- Nothing is rounded when it is computed what a purchase has left, at home and in other accounts. -/
structure CountsExactly (l : Ledger) (e : Entry) (others : Finset AccountId) : Prop where
  taken : ∀ u ∈ partialSums ((l.lotsByPurchase e.id).map Lot.purchaseShares), Representable u
  left : Representable (e.quantityOrZero.units - l.takenBy e.id fun _ => true)
  moved : ∀ a ∈ others, ∀ u ∈ partialSums ((l.lotsByPurchase e.id).flatMap (l.moves a)),
    Representable u

instance (l : Ledger) (e : Entry) (others : Finset AccountId) :
    Decidable (l.CountsExactly e others) :=
  decidable_of_iff
    ((∀ u ∈ partialSums ((l.lotsByPurchase e.id).map Lot.purchaseShares), Representable u) ∧
      Representable (e.quantityOrZero.units - l.takenBy e.id fun _ => true) ∧
      ∀ a ∈ others, ∀ u ∈ partialSums ((l.lotsByPurchase e.id).flatMap (l.moves a)),
        Representable u)
    ⟨fun ⟨taken, left, moved⟩ => ⟨taken, left, moved⟩, fun ⟨taken, left, moved⟩ => ⟨taken, left, moved⟩⟩

/-! ## What is left in one account -/

theorem movedShares_eq (l : Ledger) (account : AccountId) (a : Decimal) (lot : Lot) :
    l.movedShares account a lot =
      (if l.isMovedTo account lot then a.add lot.purchaseShares else pure a) >>= fun shares =>
        if l.isSoldIn account lot then shares.sub lot.purchaseShares else return shares := by
  have hmoved : ((l.entry? lot.sale).bind Entry.related).any (l.isBookedIn account) =
      l.isMovedTo account lot := rfl
  simp only [movedShares, hmoved]
  cases l.isMovedTo account lot <;> rfl

theorem movedShares_exact {a : Decimal} {lot : Lot} {rest : List Decimal}
    (h : ∀ u ∈ ((l.moves account lot ++ rest).map units).scanl (· + ·) a.units, Representable u) :
    ∃ b, l.movedShares account a lot = .ok b ∧
      b.units = a.units + ((l.moves account lot).map units).sum ∧
      ∀ u ∈ (rest.map units).scanl (· + ·) b.units, Representable u := by
  -- moved there or not, the shares are the exact sum and the other terms follow
  obtain ⟨b, hb, hunits, hrest⟩ : ∃ b,
      (if l.isMovedTo account lot then a.add lot.purchaseShares else pure a) = .ok b ∧
        b.units = a.units + (((if l.isMovedTo account lot then [lot.purchaseShares] else []) :
          List Decimal).map units).sum ∧
        ∀ u ∈ (((if l.isSoldIn account lot then [-lot.purchaseShares] else []) ++ rest).map
          units).scanl (· + ·) b.units, Representable u := by
    rw [moves, List.append_assoc] at h
    split
    · rename_i hmoved
      rw [if_pos hmoved] at h
      obtain ⟨hsum, hlater⟩ := representable_of_cons h
      obtain ⟨b, hb, hunits⟩ := add_exact hsum
      exact ⟨b, hb, by simpa using hunits, hunits ▸ hlater⟩
    · rename_i hmoved
      rw [if_neg hmoved] at h
      exact ⟨a, rfl, by simp, h⟩
  rw [movedShares_eq, hb]
  show ∃ c, (if l.isSoldIn account lot then b.sub lot.purchaseShares else return b) = .ok c ∧ _
  rw [moves, List.map_append, List.sum_append]
  split
  · rename_i hsold
    rw [if_pos hsold] at hrest
    obtain ⟨hdifference, hlater⟩ := representable_of_cons hrest
    rw [units_neg, ← Int.sub_eq_add_neg] at hdifference hlater
    obtain ⟨c, hc, hc'⟩ := sub_exact hdifference
    refine ⟨c, hc, ?_, hc' ▸ hlater⟩
    simp only [List.map_cons, List.map_nil, List.sum_singleton, units_neg]
    omega
  · rename_i hsold
    rw [if_neg hsold] at hrest
    exact ⟨b, rfl, by simpa using hunits, hrest⟩

theorem foldlM_movedShares_exact {lots : List Lot} {a : Decimal}
    (h : ∀ u ∈ ((lots.flatMap (l.moves account)).map units).scanl (· + ·) a.units,
      Representable u) :
    ∃ b, lots.foldlM (l.movedShares account) a = .ok b ∧
      b.units = a.units + ((lots.flatMap (l.moves account)).map units).sum := by
  induction lots generalizing a with
  | nil => exact ⟨a, rfl, by simp⟩
  | cons lot lots ih =>
    rw [List.flatMap_cons] at h ⊢
    obtain ⟨b, hb, hunits, hrest⟩ := movedShares_exact h
    obtain ⟨c, hc, hsum⟩ := ih hrest
    refine ⟨c, foldlM_cons_ok hb hc, ?_⟩
    rw [hsum, hunits, List.map_append, List.sum_append]
    omega

/-- The terms of all lots of a purchase come to what was moved there, less what was booked out. -/
theorem sum_moves (l : Ledger) (purchase : EntryId) (account : AccountId) :
    (((l.lotsByPurchase purchase).flatMap (l.moves account)).map units).sum =
      l.takenBy purchase (l.isMovedTo account) - l.takenBy purchase (l.isSoldIn account) := by
  simp only [lotsByPurchase, takenBy, lotSum]
  induction l.lots.items with
  | nil => rfl
  | cons lot lots ih =>
    by_cases hpurchase : lot.purchase = purchase
    · rw [List.filter_cons_of_pos (by simpa using hpurchase), List.flatMap_cons, List.map_append,
        List.sum_append, ih, moves]
      by_cases hmoved : l.isMovedTo account lot <;> by_cases hsold : l.isSoldIn account lot <;>
        simp [hpurchase, hmoved, hsold] <;> omega
    · rw [List.filter_cons_of_neg (by simpa using hpurchase), ih]
      simp [hpurchase]

/-- At home there is left what no lot takes. -/
theorem CountsExactly.home {e : Entry} {t : Transaction} {others : Finset AccountId}
    (h : l.CountsExactly e others) (he : l.entry? e.id = some e) (ht : l.owner? e.id = some t) :
    ∃ d, l.remainingForAccount e.id t.account = .ok d ∧
      d.units = e.quantityOrZero.units - l.takenBy e.id fun _ => true := by
  obtain ⟨total, htotal, hunits⟩ := sum_exact h.taken
  have hsum : total.units = l.takenBy e.id fun _ => true := by
    rw [hunits]
    exact l.sum_map_units fun lot => by simp
  obtain ⟨d, hd, hleft⟩ := sub_exact (a := e.quantityOrZero) (b := total) (hsum ▸ h.left)
  refine ⟨d, ?_, by rw [hleft, hsum]⟩
  simp only [remainingForAccount, ht, if_true, remainingShares, he, htotal]
  exact hd

/-- In another account there is left what was moved there and not booked out again. -/
theorem CountsExactly.away {e : Entry} {t : Transaction} {others : Finset AccountId}
    (h : l.CountsExactly e others) (ht : l.owner? e.id = some t) (hmem : account ∈ others)
    (hother : account ≠ t.account) :
    ∃ d, l.remainingForAccount e.id account = .ok d ∧
      d.units = l.takenBy e.id (l.isMovedTo account) - l.takenBy e.id (l.isSoldIn account) := by
  obtain ⟨d, hd, hunits⟩ := foldlM_movedShares_exact (a := 0) (h.moved account hmem)
  refine ⟨d, ?_, ?_⟩
  · simp only [remainingForAccount, ht, if_neg (Ne.symm hother), hd]
  · rw [hunits, sum_moves, units_zero, Int.zero_add]

/-! ## What is left in all accounts -/

/-- Whether these are all accounts, other than one, in which anything is booked. -/
structure AllOthers (l : Ledger) (home : AccountId) (others : Finset AccountId) : Prop where
  other : home ∉ others
  all : ∀ t ∈ l.transactions.items, t.account ≠ home → t.account ∈ others

instance (l : Ledger) (home : AccountId) (others : Finset AccountId) :
    Decidable (l.AllOthers home others) :=
  decidable_of_iff
    (home ∉ others ∧ ∀ t ∈ l.transactions.items, t.account ≠ home → t.account ∈ others)
    ⟨fun ⟨other, all⟩ => ⟨other, all⟩, fun ⟨other, all⟩ => ⟨other, all⟩⟩

/-- An entry is booked in one account: at home or in one of the others. -/
theorem AllOthers.sum_booked {home : AccountId} {others : Finset AccountId}
    (h : l.AllOthers home others) (hs : l.Sound) {id : EntryId} {e : Entry}
    (he : l.entry? id = some e) (w : Int) :
    ∑ a ∈ others, (if l.isBookedIn a id then w else 0) = if l.isBookedIn home id then 0 else w := by
  obtain ⟨t, ht, -, hget, -⟩ := hs.exists_owner he
  have hbooked : ∀ a, l.isBookedIn a id = decide (t.account = a) := by
    intro a
    rw [isBookedIn, ht]
  simp only [hbooked, decide_eq_true_eq]
  by_cases hhome : t.account = home
  · rw [if_pos hhome]
    refine Finset.sum_eq_zero fun a ha => if_neg ?_
    rintro rfl
    exact h.other (hhome ▸ ha)
  · have hmem : t.account ∈ others :=
      h.all t (Register.mem_items_iff.mpr hget) hhome
    rw [if_neg hhome, Finset.sum_ite_eq, if_pos hmem]

theorem lotSum_finset_sum {ι : Type} (l : Ledger) (s : Finset ι) (f : ι → Lot → Int) :
    ∑ i ∈ s, l.lotSum (f i) = l.lotSum fun lot => ∑ i ∈ s, f i lot := by
  unfold lotSum
  induction l.lots.items with
  | nil => simp
  | cons lot lots ih => simp only [List.map_cons, List.sum_cons, Finset.sum_add_distrib, ih]

theorem lotSum_congr {f g : Lot → Int} (h : ∀ lot ∈ l.lots.items, f lot = g lot) :
    l.lotSum f = l.lotSum g := congrArg List.sum (List.map_congr_left h)

/-- What was moved to other accounts is what was moved by transfers, but for those back home. -/
theorem AllOthers.sum_movedTo {home : AccountId} {others : Finset AccountId}
    (h : l.AllOthers home others) (hl : l.Reachable) (purchase : EntryId) :
    ∑ a ∈ others, l.takenBy purchase (l.isMovedTo a) =
      l.takenBy purchase fun lot => !l.isOutright lot && !l.isMovedTo home lot := by
  rw [show ∑ a ∈ others, l.takenBy purchase (l.isMovedTo a) = _ from l.lotSum_finset_sum others _]
  refine lotSum_congr fun lot hlot => ?_
  by_cases hpurchase : lot.purchase = purchase
  · simp only [hpurchase, true_and]
    cases hother : l.otherLeg? lot.sale with
    | none => simp [isMovedTo, isOutright, hother]
    | some other =>
      obtain ⟨e, he, hrelated⟩ := otherLeg?_eq_some.mp hother
      obtain ⟨-, o, ho, -⟩ := hl.sound.paired lot.sale e other he hrelated
      have hsum := h.sum_booked hl.sound ho lot.purchaseShares.units
      simp only [isMovedTo, isOutright, hother, Option.any_some, Option.isNone_some, Bool.not_false,
        Bool.true_and, hsum]
      cases l.isBookedIn home other <;> rfl
  · simp [hpurchase]

/-- What was sold or moved on in other accounts is what was not at home. -/
theorem AllOthers.sum_soldIn {home : AccountId} {others : Finset AccountId}
    (h : l.AllOthers home others) (hl : l.Reachable) (purchase : EntryId) :
    ∑ a ∈ others, l.takenBy purchase (l.isSoldIn a) =
      l.takenBy purchase fun lot => !l.isSoldIn home lot := by
  rw [show ∑ a ∈ others, l.takenBy purchase (l.isSoldIn a) = _ from l.lotSum_finset_sum others _]
  refine lotSum_congr fun lot hlot => ?_
  by_cases hpurchase : lot.purchase = purchase
  · obtain ⟨e, he⟩ := hl.lotsFollow.entries lot.key lot (Register.mem_items_iff.mp hlot) lot.sale
      (.inr rfl)
    have hsum := h.sum_booked hl.sound he lot.purchaseShares.units
    simp only [hpurchase, true_and, isSoldIn, hsum]
    cases l.isBookedIn home lot.sale <;> rfl
  · simp [hpurchase]

/-- A lot is behind a sale that is no transfer, or behind one to its own account or to another. -/
theorem takenBy_all (l : Ledger) (home : AccountId) (purchase : EntryId) :
    (l.takenBy purchase fun _ => true) = l.takenBy purchase l.isOutright +
      (l.takenBy purchase (fun lot => !l.isOutright lot && !l.isMovedTo home lot) +
        l.takenBy purchase (l.isMovedTo home)) := by
  unfold takenBy
  rw [← lotSum_add, ← lotSum_add]
  refine lotSum_congr fun lot _ => ?_
  by_cases hpurchase : lot.purchase = purchase
  · cases hother : l.otherLeg? lot.sale with
    | none => simp [hpurchase, isOutright, isMovedTo, hother]
    | some other => cases hmoved : l.isBookedIn home other <;>
        simp [hpurchase, isOutright, isMovedTo, hother, hmoved]
  · simp [hpurchase]

/-- What a purchase has left in all accounts, with what was sold of it outside transfers, is what was
bought, less what its lots take of it behind sales that are booked in other accounts and behind
transfers back to its own account. At home there is left what no lot takes, also none of another
account; in another account, what was moved there and is not booked out of there again. -/
theorem remaining_in_all_accounts (h : l.Reachable) {e : Entry} {t : Transaction}
    {others : Finset AccountId} (he : l.entry? e.id = some e) (ht : l.owner? e.id = some t)
    (hothers : l.AllOthers t.account others) (hexact : l.CountsExactly e others) :
    ∃ left : AccountId → Decimal,
      (∀ a ∈ insert t.account others, l.remainingForAccount e.id a = .ok (left a)) ∧
      (left t.account).units = e.quantityOrZero.units - (l.takenBy e.id fun _ => true) ∧
      (∀ a ∈ others, (left a).units =
        l.takenBy e.id (l.isMovedTo a) - l.takenBy e.id (l.isSoldIn a)) ∧
      (left t.account).units + ∑ a ∈ others, (left a).units + l.takenBy e.id l.isOutright =
        e.quantityOrZero.units - ((l.takenBy e.id fun lot => !l.isSoldIn t.account lot) +
          l.takenBy e.id (l.isMovedTo t.account)) := by
  have found : ∀ a ∈ insert t.account others, ∃ d, l.remainingForAccount e.id a = .ok d ∧
      (a = t.account → d.units = e.quantityOrZero.units - l.takenBy e.id fun _ => true) ∧
      (a ∈ others → d.units =
        l.takenBy e.id (l.isMovedTo a) - l.takenBy e.id (l.isSoldIn a)) := by
    intro a ha
    rcases Finset.mem_insert.mp ha with rfl | ha
    · obtain ⟨d, hd, hunits⟩ := hexact.home he ht
      exact ⟨d, hd, fun _ => hunits, fun hmem => absurd hmem hothers.other⟩
    · have hne : a ≠ t.account := fun heq => hothers.other (heq ▸ ha)
      obtain ⟨d, hd, hunits⟩ := hexact.away ht ha hne
      exact ⟨d, hd, fun heq => absurd heq hne, fun _ => hunits⟩
  choose! left hleft using found
  have hhome := (hleft t.account (Finset.mem_insert_self ..)).2.1 rfl
  have haway : ∀ a ∈ others, (left a).units =
      l.takenBy e.id (l.isMovedTo a) - l.takenBy e.id (l.isSoldIn a) := fun a ha =>
    (hleft a (Finset.mem_insert_of_mem ha)).2.2 ha
  refine ⟨left, fun a ha => (hleft a ha).1, hhome, haway, ?_⟩
  have hall := l.takenBy_all t.account e.id
  rw [Finset.sum_congr rfl haway, Finset.sum_sub_distrib, hothers.sum_movedTo h,
    hothers.sum_soldIn h, hhome]
  omega

/-- Ten shares are bought, four of them are moved to another account, and three are to be sold there. -/
def movedToSell : List Edit :=
  [.addSecurity "S", .addTransaction ⟨7⟩ (.june 20) (some ⟨1⟩),
    .addEntry ⟨2⟩ none (some (.whole 10)) none, .addTransaction ⟨7⟩ (.june 21) (some ⟨1⟩),
    .addTransfer ⟨4⟩ ⟨8⟩ none (some (-.whole 4)), .allocateLots ⟨6⟩ [⟨3⟩],
    .addTransaction ⟨8⟩ (.june 22) (some ⟨1⟩), .addEntry ⟨8⟩ none (some (-.whole 3)) none]

/-- They are sold, and the fourth is moved back. -/
def soldAndMovedBack : List Edit :=
  [.allocateLots ⟨9⟩ [⟨3⟩], .addTransaction ⟨8⟩ (.june 23) (some ⟨1⟩),
    .addTransfer ⟨10⟩ ⟨7⟩ none (some (-1)), .allocateLots ⟨12⟩ [⟨3⟩]]

theorem remaining_in_all_accounts_movedBack :
    ∃ (l : Ledger) (e : Entry) (t : Transaction) (left : AccountId → Decimal), l.Reachable ∧
      l.entry? ⟨3⟩ = some e ∧ l.owner? ⟨3⟩ = some t ∧ l.AllOthers t.account {⟨8⟩} ∧
      l.CountsExactly e {⟨8⟩} ∧ l.remainingForAccount ⟨3⟩ t.account = .ok (left t.account) ∧
      l.remainingForAccount ⟨3⟩ ⟨8⟩ = .ok (left ⟨8⟩) ∧
      (left t.account).units + (left ⟨8⟩).units + l.takenBy ⟨3⟩ l.isOutright =
        e.quantityOrZero.units - ((l.takenBy ⟨3⟩ fun lot => !l.isSoldIn t.account lot) +
          l.takenBy ⟨3⟩ (l.isMovedTo t.account)) := by
  have hcheck : (((Ledger.new .standard).performAll (movedToSell ++ soldAndMovedBack)).toOption.any
      fun l => (l.entry? ⟨3⟩).any fun e => (l.owner? ⟨3⟩).any fun t =>
        e.id = ⟨3⟩ ∧ l.AllOthers t.account {⟨8⟩} ∧ l.CountsExactly e {⟨8⟩}) = true := by
    decide +kernel
  obtain ⟨l, hl, hcheck⟩ := exists_ok_of_any hcheck
  obtain ⟨e, he, hcheck⟩ := (Option.any_eq_true _ _).mp hcheck
  obtain ⟨t, ht, hcheck⟩ := (Option.any_eq_true _ _).mp hcheck
  obtain ⟨hid, hothers, hexact⟩ := of_decide_eq_true hcheck
  have hreachable := (Reachable.new .standard).performAll hl
  obtain ⟨left, hleft, -, -, hsum⟩ :=
    remaining_in_all_accounts hreachable (hid ▸ he) (hid ▸ ht) hothers hexact
  rw [hid] at hleft hsum
  rw [Finset.sum_singleton] at hsum
  exact ⟨l, e, t, left, hreachable, he, ht, hothers, hexact, hleft _ (by simp), hleft _ (by simp),
    hsum⟩

/-- What is sold in the account that shares were moved to is taken off at home once more: three of the
six that are left there. -/
theorem exists_taken_twice :
    ∃ (before after : Ledger) (e : Entry) (t : Transaction), before.ReachedByMatching ∧
      before.advance (.allocateLots ⟨9⟩ [⟨3⟩]) = .ok after ∧ after.ReachedByMatching ∧
      after.entry? ⟨3⟩ = some e ∧ after.owner? ⟨3⟩ = some t ∧ t.account = ⟨7⟩ ∧
      after.AllOthers ⟨7⟩ {⟨8⟩} ∧ after.CountsExactly e {⟨8⟩} ∧
      before.remainingForAccount ⟨3⟩ ⟨7⟩ = .ok (.whole 6) ∧
      after.remainingForAccount ⟨3⟩ ⟨7⟩ = .ok (.whole 3) ∧
      after.remainingForAccount ⟨3⟩ ⟨8⟩ = .ok 1 ∧
      (Decimal.whole 3).units + (1 : Decimal).units + after.takenBy ⟨3⟩ after.isOutright ≠
        e.quantityOrZero.units := by
  have hcheck : (((Ledger.new .standard).performAll movedToSell).toOption.any fun before =>
      (before.advance (.allocateLots ⟨9⟩ [⟨3⟩])).toOption.any fun after =>
        (after.entry? ⟨3⟩).any fun e => (after.owner? ⟨3⟩).any fun t => t.account = ⟨7⟩ ∧
          after.AllOthers ⟨7⟩ {⟨8⟩} ∧ after.CountsExactly e {⟨8⟩} ∧
          (before.remainingForAccount ⟨3⟩ ⟨7⟩).toOption = some (.whole 6) ∧
          (after.remainingForAccount ⟨3⟩ ⟨7⟩).toOption = some (.whole 3) ∧
          (after.remainingForAccount ⟨3⟩ ⟨8⟩).toOption = some 1 ∧
          (Decimal.whole 3).units + (1 : Decimal).units + after.takenBy ⟨3⟩ after.isOutright ≠
            e.quantityOrZero.units) = true := by
    decide +kernel
  obtain ⟨before, hbefore, hcheck⟩ := exists_ok_of_any hcheck
  obtain ⟨after, hafter, hcheck⟩ := exists_ok_of_any hcheck
  obtain ⟨e, he, hcheck⟩ := (Option.any_eq_true _ _).mp hcheck
  obtain ⟨t, ht, hcheck⟩ := (Option.any_eq_true _ _).mp hcheck
  obtain ⟨haccount, hothers, hexact, hsix, hthree, hone, hsum⟩ := of_decide_eq_true hcheck
  have hreached : before.ReachedByMatching :=
    (ReachableBy.new .standard).performAll_of_forall (by decide) hbefore
  have hstep : before.performAll [.allocateLots ⟨9⟩ [⟨3⟩]] = .ok after := foldlM_cons_ok hafter rfl
  exact ⟨before, after, e, t, hreached, hafter, hreached.performAll_of_forall (by decide) hstep,
    he, ht, haccount, hothers, hexact, toOption_eq_some_iff.mp hsix, toOption_eq_some_iff.mp hthree,
    toOption_eq_some_iff.mp hone, hsum⟩

end Ledger

end Lotbook
