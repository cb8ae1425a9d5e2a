/-
# Lotbook.Proofs.Strays -- amounts that do not count in a balance

Entries in a category that does not affect the balance are left out of the amount of their transaction,
and of what a transaction takes along to another account. But the amounts of entries are reported as they
come and go, whatever their categories are. So a session moves the reported balance of an account by more
than its transactions amount to there: by the amounts that do not count, of the transactions that were in
the account when the session began or that were added there (`Session.accountSummaries_eq`). An entry that
changes its category moves nothing, since its amount goes over from those that count to the others.
-/
import Lotbook.Proofs.Summaries

namespace Lotbook

namespace Ledger

variable {l before after : Ledger} {account : AccountId} {id : TransactionId} {t : Transaction}

/-! ## Amounts that count and amounts that do not -/

/-- What the entries of a transaction come to that count in its balance, not rounded. -/
def counted (l : Ledger) (t : Transaction) : Int :=
  ((Balances.amountTerms l t).map Decimal.units).sum

/-- What the entries of a transaction come to that do not count in its balance, not rounded. -/
def uncounted (l : Ledger) (t : Transaction) : Int :=
  (((l.details t).filter fun e => !l.countsInBalance e).map fun e => e.amountOrZero.units).sum

/-- All amounts of a transaction together. -/
theorem total_eq (h : l.Sound) (ht : l.transaction? id = some t) :
    Balances.counter.total l id = l.counted t + l.uncounted t := by
  rw [← Counter.sum_details h ht, counted, Balances.amountTerms, uncounted]
  induction l.details t with
  | nil => rfl
  | cons e rest ih =>
    have hvalue : Balances.counter.valueOf e = e.amountOrZero.units := rfl
    rw [List.map_cons, List.sum_cons, ih, hvalue]
    cases hcounts : l.countsInBalance e with
    | true =>
      rw [List.filter_cons_of_pos hcounts, List.filter_cons_of_neg (by simp [hcounts])]
      cases hamount : e.amount with
      | none =>
        rw [List.filterMap_cons_none hamount, Entry.amountOrZero, hamount]
        exact Int.zero_add _
      | some amount =>
        rw [List.filterMap_cons_some hamount, List.map_cons, List.sum_cons, Entry.amountOrZero, hamount]
        exact (Int.add_assoc ..).symm
    | false =>
      rw [List.filter_cons_of_neg (by simp [hcounts]), List.filter_cons_of_pos (by simp [hcounts]),
        List.map_cons, List.sum_cons]
      omega

theorem transactionAmount_exact (hexact : l.UnroundedAmounts) (ht : t ∈ l.transactions.items) :
    ∃ d, l.transactionAmount t = .ok d ∧ d.units = l.counted t :=
  Decimal.sum_exact (hexact t ht)

/-- The account that a transaction was in before a session, or that it is in if the session added it. -/
def homeOf (before after : Ledger) (id : TransactionId) : Option AccountId :=
  ((before.transaction? id).or (after.transaction? id)).map Transaction.account

/-- What the entries of the transactions at home in an account come to, as far as they do not count. -/
def uncountedIn (l : Ledger) (home : TransactionId → Option AccountId) (account : AccountId) : Int :=
  ((l.transactions.items.filter fun t => home t.id = some account).map l.uncounted).sum

/-! ## What one transaction adds to an account -/

/-- What a transaction adds to those of some kind: an amount and a count, or nothing if it is none of them
or is not there. -/
def share (l : Ledger) (kind : Transaction → Bool) (amount : Transaction → Int) (count : Int)
    (id : TransactionId) : Int × Int :=
  ((l.transaction? id).map fun t => if kind t then (amount t, count) else 0).getD 0

theorem share_of_none {kind : Transaction → Bool} {amount : Transaction → Int} {count : Int}
    (h : l.transaction? id = none) : l.share kind amount count id = 0 := by
  rw [share, h]
  rfl

theorem share_of_some {kind : Transaction → Bool} {amount : Transaction → Int} {count : Int}
    (h : l.transaction? id = some t) :
    l.share kind amount count id = if kind t then (amount t, count) else 0 := by
  rw [share, h]
  rfl

theorem sum_share {ids : Finset TransactionId} (hids : ∀ id ∈ l.transactions.keys, id ∈ ids)
    (kind : Transaction → Bool) (amount : Transaction → Int) (count : Int) :
    ∑ id ∈ ids, l.share kind amount count id = (((l.transactions.items.filter kind).map amount).sum,
      ((l.transactions.items.filter kind).length : Int) * count) := by
  have hpairs := sum_map_pair (l.transactions.items.filter kind) amount fun _ => count
  rw [List.map_const', List.sum_replicate, nsmul_eq_mul] at hpairs
  have hshares := Register.sum_items_eq_sum_keys l.transactions
    (fun t => if kind t then (amount t, count) else 0) ids hids
  rw [← hpairs]
  refine hshares.symm.trans ?_
  rw [sum_map_filter (p := kind) fun t _ ht => by rw [ht]; rfl]
  exact congrArg List.sum (List.map_congr_left fun t ht => if_pos (List.of_mem_filter ht))

/-- What is counted in an account. -/
theorem sum_counted (hexact : l.UnroundedAmounts) {ids : Finset TransactionId}
    (hids : ∀ id ∈ l.transactions.keys, id ∈ ids) (account : AccountId) :
    ∃ amount, l.amountIn account = .ok amount ∧
      ∑ id ∈ ids, l.share (fun t => t.account = account) l.counted 1 id =
        (amount, ((l.transactionsIn account).length : Int)) := by
  obtain ⟨ds, hds, hsum⟩ := mapM_eq_ok (l.transactionsIn account) l.transactionAmount Decimal.units
    l.counted fun t ht => transactionAmount_exact hexact (List.mem_of_mem_filter ht)
  refine ⟨_, by rw [amountIn, hds]; rfl, ?_⟩
  rw [hsum, sum_share hids, mul_one]
  rfl

end Ledger

namespace Session

variable {before : Ledger} {s : Session} {account : AccountId}

open Ledger

theorem spot?_eq_some_iff {t : Transaction} {id : TransactionId} (hid : t.id = id)
    (account : AccountId) :
    Balances.counter.spot? (some t) = some (id, account) ↔ t.account = account := by
  rw [Counter.spot?_eq_some]
  exact (and_iff_right hid).trans Option.some_inj

/-- What a transaction amounts to at an account, whether it counts or not. -/
theorem standing_eq {l : Ledger} (h : l.Sound) (account : AccountId) (id : TransactionId) :
    Balances.counter.standing l (id, account) =
      l.share (fun t => t.account = account) (fun t => l.counted t + l.uncounted t) 1 id := by
  rw [Counter.standing]
  cases ht : l.transaction? id with
  | none =>
    rw [share_of_none ht]
    rfl
  | some t =>
    rw [share_of_some ht, total_eq h ht]
    simp only [spot?_eq_some_iff (id_of_transaction ht), decide_eq_true_eq]

/-- What is reported for a transaction at an account: what it amounts to there in the end, less what it
amounted to there in the beginning, and at its home what came in that does not count. -/
theorem Settled.reported_eq (h : s.Settled before) (account : AccountId) (id : TransactionId) :
    Balances.counter.outcome before s.ledger (id, account) +
        (Balances.counting s.context).astray before s.ledger (id, account) =
      s.ledger.share (fun t => t.account = account) s.ledger.counted 1 id -
        before.share (fun t => t.account = account) before.counted 1 id +
      (s.ledger.share (fun t => before.homeOf s.ledger t.id = some account) s.ledger.uncounted 0 id -
        before.share (fun t => before.homeOf s.ledger t.id = some account) before.uncounted 0 id) := by
  have hmissed : Balances.counter.missed before s.ledger (id, account) = 0 := by
    rw [Counter.missed]
    cases s.ledger.transaction? id <;> simp [Balances.spot?_some]
  rw [Counter.outcome, hmissed, sub_zero, standing_eq h.sound, standing_eq h.before_sound]
  have hhome : before.homeOf s.ledger id =
      ((before.transaction? id).or (s.ledger.transaction? id)).map Transaction.account := rfl
  cases hbefore : before.transaction? id with
  | none =>
    rw [Counting.astray_of_new hbefore]
    simp only [share_of_none hbefore, sub_zero, add_zero]
    cases hafter : s.ledger.transaction? id with
    | none => simp only [share_of_none hafter, add_zero]
    | some t =>
      -- it was added: all its amounts are booked where it is
      rw [hbefore, hafter] at hhome
      simp only [share_of_some hafter, id_of_transaction hafter, hhome]
      by_cases haccount : t.account = account <;> simp [haccount]
  | some t₀ =>
    rw [hbefore] at hhome
    cases hafter : s.ledger.transaction? id with
    | none =>
      -- it was deleted: all its amounts are taken off where it was
      rw [Counting.astray_of_gone hafter]
      simp only [share_of_none hafter, share_of_some hbefore, id_of_transaction hbefore, hhome]
      by_cases haccount : t₀.account = account <;> simp [haccount]
      omega
    | some t =>
      have hid := id_of_transaction hafter
      have hid₀ := id_of_transaction hbefore
      have hsame : Balances.counter.spot? (some t₀) = Balances.counter.spot? (some t) ↔
          t₀.account = t.account := by
        rw [(spot?_eq_some_iff hid t.account).mpr rfl, spot?_eq_some_iff hid₀]
      simp only [share_of_some hafter, share_of_some hbefore, hid, hid₀, hhome]
      by_cases hstayed : t₀.account = t.account
      · rw [Counting.astray_of_stayed hbefore hafter (hsame.mpr hstayed)]
        by_cases haccount : t.account = account <;> simp [hstayed, haccount]
        omega
      · -- it moved, and left behind at its home what does not count
        rw [Counting.astray_of_moved hbefore hafter (mt hsame.mp hstayed)]
        have htaken : (Balances.counting s.context).taken t = s.ledger.counted t := rfl
        have htotal : (Balances.counting s.context).total s.ledger id =
          s.ledger.counted t + s.ledger.uncounted t := total_eq h.sound hafter
        have hnow : (Balances.counting s.context).spot? (some t) = some (id, account) ↔
          t.account = account := spot?_eq_some_iff hid account
        have hwas : (Balances.counting s.context).spot? (some t₀) = some (id, account) ↔
          t₀.account = account := spot?_eq_some_iff hid₀ account
        simp only [hnow, hwas, htaken, htotal]
        by_cases hto : t.account = account
        · simp [hto, hto ▸ hstayed]
        · by_cases hfrom : t₀.account = account <;> simp [hto, hfrom]
          omega

/-- The summaries of accounts, whatever the categories are. -/
theorem Settled.balances_eq (h : s.Settled before) (hamounts : before.UnroundedAmounts)
    (hamounts' : s.ledger.UnroundedAmounts) (hexact : s.Unrounded) :
    ∃ b summaries, s.notices.foldlM (Balances.notify s.context) .empty = .ok b ∧
      b.summaries = .ok summaries ∧ ∀ account, ∃ was now, before.amountIn account = .ok was ∧
        s.ledger.amountIn account = .ok now ∧ Balances.told summaries account =
          (now - was + (s.ledger.uncountedIn (before.homeOf s.ledger) account -
              before.uncountedIn (before.homeOf s.ledger) account),
            ((s.ledger.transactionsIn account).length : Int) -
              (before.transactionsIn account).length) := by
  obtain ⟨b, hb, htally⟩ := Counting.tally_notices (C := Balances.counting s.context) h
    (b := .empty) (fun _ => rfl) (fun _ hx => Bool.false_ne_true hx) hexact.balances
  change s.notices.foldlM (Balances.notify s.context) .empty = .ok b at hb
  obtain ⟨summaries, hsummaries, htold⟩ :=
    Balances.summaries_eq_ok (hexact.accounts b (by rw [hb]; rfl))
  refine ⟨b, summaries, hb, hsummaries, fun account => ?_⟩
  set ids : Finset TransactionId :=
    (b.bookings.keys.map fun k => (Balances.spotOf k).1).toFinset ∪
      before.transactions.keys.toFinset ∪ s.ledger.transactions.keys.toFinset with hids
  have hkeys : ∀ k ∈ b.bookings.keys, (Balances.spotOf k).1 ∈ ids := by
    intro k hk
    simp only [hids, Finset.mem_union, List.mem_toFinset]
    exact .inl (.inl (List.mem_map.mpr ⟨k, hk, rfl⟩))
  have hbefore : ∀ id ∈ before.transactions.keys, id ∈ ids := by simp +contextual [hids]
  have hafter : ∀ id ∈ s.ledger.transactions.keys, id ∈ ids := by simp +contextual [hids]
  obtain ⟨was, hwas, hcounted⟩ := sum_counted hamounts hbefore account
  obtain ⟨now, hnow, hcounted'⟩ := sum_counted hamounts' hafter account
  refine ⟨was, now, hwas, hnow, ?_⟩
  rw [htold, Counter.sum_items_at b.bookings Balances.spotOf Balances.figures hkeys]
  have hreported (id : TransactionId) :
      ((b.bookings.get? (Balances.spotOf.symm (id, account))).map Balances.figures).getD 0 = _ :=
    (htally (id, account)).trans (h.reported_eq account id)
  simp only [hreported]
  rw [Finset.sum_add_distrib, Finset.sum_sub_distrib, Finset.sum_sub_distrib, hcounted, hcounted',
    sum_share hafter, sum_share hbefore]
  simp [uncountedIn]

/-- The account summaries of a session are the difference that it made, and by how much the amounts that do
not count in the balance went up, each at the home of its transaction. -/
theorem accountSummaries_eq {allowed : Session → Edit → Prop} {edits : List Edit}
    (hbefore : before.Reachable) (hrun : Run allowed (start before) edits s)
    (hamounts : before.UnroundedAmounts) (hamounts' : s.ledger.UnroundedAmounts)
    (hexact : s.Unrounded) :
    ∃ events, s.complete .standard = .ok events ∧
      ((Event.accountSummaries events).map AccountSummary.account).Nodup ∧
      ∀ account, ∃ was now, before.amountIn account = .ok was ∧ s.ledger.amountIn account = .ok now ∧
        Event.accountDelta events account =
          (now - was + (s.ledger.uncountedIn (before.homeOf s.ledger) account -
              before.uncountedIn (before.homeOf s.ledger) account),
            ((s.ledger.transactionsIn account).length : Int) -
              (before.transactionsIn account).length) := by
  have h := hrun.settled hbefore
  obtain ⟨b, accounts, hb, haccounts, htold⟩ := h.balances_eq hamounts hamounts' hexact
  obtain ⟨p, positions, hp, hpositions, -⟩ := h.positions_exact hexact
  obtain ⟨events, hcomplete, hevents, -⟩ := complete_standard hb hp haccounts hpositions
  refine ⟨events, hcomplete, ?_, fun account => ?_⟩
  · rw [hevents]
    exact accounts.nodup_keys
  · obtain ⟨was, now, hwas, hnow, hdelta⟩ := htold account
    refine ⟨was, now, hwas, hnow, ?_⟩
    rw [← hdelta, Event.accountDelta, hevents]
    rfl

/-- A transaction with an entry that counts and one that does not, and another transaction. -/
def partlyCounted : List Ledger.Edit :=
  [.addCategory "C" false none, .addTransaction ⟨7⟩ (.june 20) none,
    .addEntry ⟨2⟩ (some (.whole 5)) none none, .addEntry ⟨2⟩ (some (.whole 3)) none (some ⟨1⟩),
    .addTransaction ⟨7⟩ (.june 21) none]

/-- The transaction moves with the amount that counts, the other amount changes, an entry comes into a
category that does not count, and one that does not count is added. -/
def recategorized : List Edit :=
  [.setAccount ⟨2⟩ ⟨8⟩, .setAmount ⟨4⟩ (some (.whole 4)), .setCategory ⟨3⟩ (some ⟨1⟩),
    .addEntry ⟨5⟩ (some (.whole 2)) none (some ⟨1⟩)]

theorem accountSummaries_eq_recategorized :
    ∃ before s, before.Reachable ∧ Run (fun _ _ => True) (start before) recategorized s ∧
      ∃ events, s.complete .standard = .ok events ∧ ∀ account, ∃ was now,
        before.amountIn account = .ok was ∧ s.ledger.amountIn account = .ok now ∧
          Event.accountDelta events account =
            (now - was + (s.ledger.uncountedIn (before.homeOf s.ledger) account -
                before.uncountedIn (before.homeOf s.ledger) account),
              ((s.ledger.transactionsIn account).length : Int) -
                (before.transactionsIn account).length) := by
  have hcheck : (((Ledger.new .standard).performAll partlyCounted).toOption.any fun before =>
      ((start before).performAll recategorized).toOption.any fun s =>
        before.UnroundedAmounts ∧ s.ledger.UnroundedAmounts ∧ s.Unrounded) = true := by
    decide +kernel
  obtain ⟨before, hpartly, hcheck⟩ := exists_ok_of_any hcheck
  obtain ⟨s, hedits, hcheck⟩ := exists_ok_of_any hcheck
  obtain ⟨hamounts, hamounts', hexact⟩ := of_decide_eq_true hcheck
  have hbefore := (Ledger.Reachable.new .standard).performAll hpartly
  have hrun := Run.of_performAll (fun _ _ _ => trivial) hedits
  obtain ⟨events, hcomplete, -, hdelta⟩ := accountSummaries_eq hbefore hrun hamounts hamounts' hexact
  exact ⟨before, s, hbefore, hrun, events, hcomplete, hdelta⟩

/-- An entry that does not count is reported when it is added, and one that comes to count is not. -/
theorem exists_stray :
    ∃ before s s', before.Reachable ∧
      Run (fun _ _ => True) (start before) [.addEntry ⟨5⟩ (some (.whole 2)) none (some ⟨1⟩)] s ∧
      Run (fun _ _ => True) (start before) [.setCategory ⟨4⟩ none] s' ∧ s.Unrounded ∧ s'.Unrounded ∧
      before.amountIn ⟨7⟩ = .ok (Decimal.whole 5).units ∧
      s.ledger.amountIn ⟨7⟩ = .ok (Decimal.whole 5).units ∧
      s'.ledger.amountIn ⟨7⟩ = .ok (Decimal.whole 8).units ∧
      ∃ events events', s.complete .standard = .ok events ∧ s'.complete .standard = .ok events' ∧
        Event.accountDelta events ⟨7⟩ = ((Decimal.whole 2).units, 0) ∧
        Event.accountDelta events' ⟨7⟩ = 0 := by
  have hcheck : (((Ledger.new .standard).performAll partlyCounted).toOption.any fun before =>
      ((start before).performAll
          [.addEntry ⟨5⟩ (some (.whole 2)) none (some ⟨1⟩)]).toOption.any fun s =>
      ((start before).performAll [.setCategory ⟨4⟩ none]).toOption.any fun s' =>
      (s.complete .standard).toOption.any fun events =>
      (s'.complete .standard).toOption.any fun events' =>
        s.Unrounded ∧ s'.Unrounded ∧ (before.amountIn ⟨7⟩).toOption = some (Decimal.whole 5).units ∧
          (s.ledger.amountIn ⟨7⟩).toOption = some (Decimal.whole 5).units ∧
          (s'.ledger.amountIn ⟨7⟩).toOption = some (Decimal.whole 8).units ∧
          Event.accountDelta events ⟨7⟩ = ((Decimal.whole 2).units, 0) ∧
          Event.accountDelta events' ⟨7⟩ = 0) = true := by
    decide +kernel
  obtain ⟨before, hpartly, hcheck⟩ := exists_ok_of_any hcheck
  obtain ⟨s, hadd, hcheck⟩ := exists_ok_of_any hcheck
  obtain ⟨s', hset, hcheck⟩ := exists_ok_of_any hcheck
  obtain ⟨events, hcomplete, hcheck⟩ := exists_ok_of_any hcheck
  obtain ⟨events', hcomplete', hcheck⟩ := exists_ok_of_any hcheck
  obtain ⟨hexact, hexact', hwas, hnow, hnow', hdelta, hdelta'⟩ := of_decide_eq_true hcheck
  exact ⟨before, s, s', (Ledger.Reachable.new .standard).performAll hpartly,
    Run.of_performAll (fun _ _ _ => trivial) hadd, Run.of_performAll (fun _ _ _ => trivial) hset,
    hexact, hexact', toOption_eq_some_iff.mp hwas, toOption_eq_some_iff.mp hnow,
    toOption_eq_some_iff.mp hnow', events, events', hcomplete, hcomplete', hdelta, hdelta'⟩

end Session

end Lotbook
