/-
# Lotbook.Proofs.BalanceCounts -- balances count amounts by account

Balances are a count of the amounts of entries at the accounts of their transactions
(`Balances.counting`), as long as no addition rounds. A transaction that moves takes along the amounts that
count in its balance, which are those of all its entries if all categories affect the balance. The
summaries give, for each account, what was counted there (`Balances.summaries_exact`).
-/
import Lotbook.Proofs.Categories
import Lotbook.Proofs.Tallies

namespace Lotbook

namespace Balances

/-! ## Exact results -/

/-- The exact result of adding an amount to what was counted for a transaction. -/
def postResults (b : Balances) (owner : Option Transaction) (amount : Int) : List Int :=
  (owner.map fun t => (b.bookingAt (keyOf t)).amount.units + amount).toList

/-- The amounts that make up the amount of a transaction. -/
def amountTerms (l : Ledger) (t : Transaction) : List Decimal :=
  ((l.details t).filter l.countsInBalance).filterMap Entry.amount

/-- The exact results of taking a transaction from an old account to its key now. -/
def moveResults (b : Balances) (newKey : BookingKey) (terms : List Decimal) : List Int :=
  ((b.bookingAt newKey).amount.units - (terms.map Decimal.units).sum) :: Decimal.partialSums terms

/-- The exact results of all additions and subtractions that are carried out for a notice. -/
def results (c : ReportContext) (b : Balances) : Notice → List Int
  | .added (.entry e) => b.postResults (c.ownerOf? e .empty) e.amountOrZero.units
  | .changed (.transaction t) previous =>
      match previous.account? with
      | some old =>
          if old = t.account then [] else b.moveResults (keyOf t) (amountTerms c.ledger t)
      | none => []
  | .changed (.entry e) previous =>
      match previous.amount? with
      | some old =>
          let delta := e.amountOrZero.units - (old.getD 0).units
          delta :: b.postResults (c.ownerOf? e .empty) delta
      | none => []
  | .deleted (.entry e) previous =>
      b.postResults (c.ownerOf? e previous) (-((previous.amount?.getD e.amount).getD 0).units)
  | _ => []

/-- Whether a notice is taken in without rounding. -/
def Exact (c : ReportContext) (b : Balances) (n : Notice) : Prop :=
  ∀ u ∈ b.results c n, Decimal.Representable u

instance (c : ReportContext) (b : Balances) (n : Notice) : Decidable (Exact c b n) :=
  inferInstanceAs (Decidable (∀ u ∈ b.results c n, Decimal.Representable u))

/-! ## What is counted -/

/-- A booking is filed by a transaction and its account. -/
def spotOf : BookingKey ≃ Spot AccountId where
  toFun key := (key.transaction, key.account)
  invFun x := ⟨x.1, x.2⟩
  left_inv _ := rfl
  right_inv _ := rfl

/-- The amount and the count of a booking. -/
def figures (booking : Booking) : Int × Int := (booking.amount.units, booking.count)

/-- Balances as a count of amounts at accounts. -/
def counter : Counter Balances AccountId where
  place? account _ := some account
  value amount _ := (amount.getD 0).units
  tally b x := ((b.bookings.get? (spotOf.symm x)).map figures).getD 0
  Booked b x := b.bookings.contains (spotOf.symm x) = true

variable {c : ReportContext} {b b' : Balances}

theorem spot?_some (t : Transaction) : counter.spot? (some t) = some (spotOf (keyOf t)) := rfl

theorem tally_eq (b : Balances) (key : BookingKey) :
    counter.tally b (spotOf key) = figures (b.bookingAt key) := by
  change ((b.bookings.get? key).map figures).getD 0 = _
  rw [bookingAt]
  cases b.bookings.get? key <;> rfl

theorem key_bookingAt (b : Balances) (key : BookingKey) : (b.bookingAt key).key = key := by
  rw [bookingAt]
  cases hkey : b.bookings.get? key with
  | none => rfl
  | some booking => exact Register.key_of_get? hkey

/-- Putting a booking in place of another counts at its own spot only. -/
theorem posts_put (booking : Booking) {key : BookingKey} {v : Int × Int} (hkey : booking.key = key)
    (hfigures : figures booking = figures (b.bookingAt key) + v) :
    counter.Posts b ⟨b.bookings.put booking⟩ (some (spotOf key)) v := by
  have hput := Register.get?_put_of_key (j := key) hkey b.bookings
  refine ⟨fun x => ?_, fun x hx => ?_⟩
  · obtain ⟨k, rfl⟩ := spotOf.surjective x
    rw [tally_eq, tally_eq, bookingAt, hput]
    by_cases hk : k = key
    · subst hk
      rw [if_pos rfl, if_pos rfl]
      exact hfigures
    · rw [if_neg hk, if_neg fun h => hk (spotOf.injective (Option.some.inj h)).symm, add_zero]
      rfl
  · obtain ⟨k, rfl⟩ := spotOf.surjective x
    obtain ⟨found, hfound⟩ := Register.contains_iff.mp hx
    change (b.bookings.put booking).get? k = some found at hfound
    rw [hput] at hfound
    by_cases hk : k = key
    · exact .inr (congrArg (some <| spotOf ·) hk.symm)
    · rw [if_neg hk] at hfound
      exact .inl (Register.contains_iff.mpr ⟨found, hfound⟩)

/-- Putting two bookings moves a transaction from the spot of one to that of the other. -/
theorem moves_put {oldKey newKey : BookingKey} {left total : Decimal}
    (hleft : left.units = (b.bookingAt newKey).amount.units - total.units) :
    counter.Moves b ⟨(b.bookings.put ⟨oldKey, left, -1⟩).put ⟨newKey, total, 1⟩⟩
      (some (spotOf oldKey)) (some (spotOf newKey)) total.units := by
  have hput (k : BookingKey) : ((b.bookings.put ⟨oldKey, left, -1⟩).put ⟨newKey, total, 1⟩).get? k =
      if k = newKey then some ⟨newKey, total, 1⟩
      else if k = oldKey then some ⟨oldKey, left, -1⟩ else b.bookings.get? k := by
    rw [Register.get?_put, Register.get?_put]
    rfl
  have hspot {k key : BookingKey} : some (spotOf key) = some (spotOf k) ↔ k = key := by
    rw [Option.some_inj, spotOf.apply_eq_iff_eq, eq_comm]
  refine ⟨fun x => ?_, fun x hx => ?_⟩
  · obtain ⟨k, rfl⟩ := spotOf.surjective x
    rw [tally_eq, tally_eq, Option.map_some, Option.getD_some, tally_eq, bookingAt, hput]
    simp only [hspot]
    by_cases hnew : k = newKey
    · simp [hnew, figures]
    · rw [if_neg hnew, if_neg hnew]
      by_cases hold : k = oldKey
      · simp [hold, figures, hleft]
      · rw [if_neg hold, if_neg hold]
        rfl
  · obtain ⟨k, rfl⟩ := spotOf.surjective x
    obtain ⟨found, hfound⟩ := Register.contains_iff.mp hx
    change ((b.bookings.put ⟨oldKey, left, -1⟩).put ⟨newKey, total, 1⟩).get? k = some found at hfound
    rw [hput] at hfound
    simp only [hspot]
    by_cases hnew : k = newKey
    · exact .inr (.inl hnew)
    · by_cases hold : k = oldKey
      · exact .inr (.inr hold)
      · rw [if_neg hnew, if_neg hold] at hfound
        exact .inl (Register.contains_iff.mpr ⟨found, hfound⟩)

theorem addCount_posts (b : Balances) (key : BookingKey) (count : Int) :
    counter.Posts b (b.addCount key count) (some (spotOf key)) (0, count) :=
  posts_put _ (b.key_bookingAt key) (by simp [figures])

theorem addEntryAmount_posts {owner : Option Transaction} {amount : Decimal}
    (h : ∀ u ∈ b.postResults owner amount.units, Decimal.Representable u) :
    ∃ b', b.addEntryAmount owner amount = .ok b' ∧
      counter.Posts b b' (counter.spot? owner) (amount.units, 0) := by
  cases owner with
  | none => exact ⟨b, rfl, fun x => by simp [Counter.spot?], fun x hx => .inl hx⟩
  | some t =>
    obtain ⟨sum, hsum, hunits⟩ := Decimal.add_exact (h _ List.mem_cons_self)
    refine ⟨⟨b.bookings.put { b.bookingAt (keyOf t) with amount := sum }⟩, ?_, ?_⟩
    · rw [addEntryAmount, addAmount]
      simp only [hsum]
      rfl
    · refine posts_put { b.bookingAt (keyOf t) with amount := sum }
        (b.key_bookingAt (keyOf t)) ?_
      simp [figures, hunits]

/-- The terms of a transaction's amount are the amounts of its entries. -/
theorem sum_amountTerms {l : Ledger} (h : l.AllAffectBalance) (t : Transaction) :
    ((amountTerms l t).map Decimal.units).sum = ((l.details t).map counter.valueOf).sum := by
  have hcounts (e : Entry) : l.countsInBalance e = true := by
    rw [Ledger.countsInBalance]
    split
    · rename_i category hcategory
      obtain ⟨id, -, hid⟩ := Option.bind_eq_some_iff.mp hcategory
      exact h category (Register.get?_eq_some_iff.mp hid).1
    · rfl
  have hall : (l.details t).filter l.countsInBalance = l.details t :=
    List.filter_eq_self.mpr fun e _ => hcounts e
  rw [amountTerms, hall]
  exact Counter.sum_filterMap_units Entry.amount (l.details t)

/-- A change of amount is counted as the difference. -/
theorem entry_changed {e : Entry} {p : Previous} (h : b.Exact c (.changed (.entry e) p)) :
    ∃ b', b.notify c (.changed (.entry e) p) = .ok b' ∧
      counter.Posts b b' (counter.spot? (c.ownerOf? e .empty))
        (counter.valueOf e - counter.valueOf (e.restored p), 0) := by
  rw [Exact, results] at h
  rw [notify]
  cases hamount : p.amount? with
  | none =>
    refine ⟨b, rfl, fun x => ?_, fun x hx => .inl hx⟩
    simp [Counter.valueOf, counter, Entry.restored, hamount]
  | some old =>
    rw [hamount] at h
    obtain ⟨delta, hdelta, hunits⟩ := Decimal.sub_exact (h _ List.mem_cons_self)
    have hvalue : counter.valueOf e - counter.valueOf (e.restored p) = delta.units := by
      rw [hunits]
      simp [Counter.valueOf, counter, Entry.restored, hamount, Entry.amountOrZero]
    rw [hvalue]
    simp only [hdelta]
    by_cases hzero : delta = 0
    · refine ⟨b, if_pos hzero, fun x => ?_, fun x hx => .inl hx⟩
      simp [hzero]
    · have hresults : ∀ u ∈ b.postResults (c.ownerOf? e .empty) delta.units, Decimal.Representable u :=
        fun u hu => h u (List.mem_cons_of_mem _ (hunits ▸ hu))
      obtain ⟨b', hb', hposts⟩ := addEntryAmount_posts hresults
      exact ⟨b', (if_neg hzero).trans hb', hposts⟩

theorem entry_deleted {e : Entry} {p : Previous} (h : b.Exact c (.deleted (.entry e) p)) :
    ∃ b', b.notify c (.deleted (.entry e) p) = .ok b' ∧
      counter.Posts b b' (counter.spot? (c.ownerOf? e p)) (-counter.valueOf (e.restored p), 0) :=
  addEntryAmount_posts h

/-- A transaction stays where it is if its account does. -/
theorem spot?_restored_eq {t : Transaction} {p : Previous} :
    counter.spot? (some (Touched.restored p t)) = counter.spot? (some t) ↔
      p.account?.getD t.account = t.account := by
  rw [spot?_some, spot?_some, Option.some_inj, spotOf.apply_eq_iff_eq, keyOf, keyOf,
    BookingKey.mk.injEq]
  exact and_iff_right rfl

theorem transaction_stayed {t : Transaction} {p : Previous}
    (h : counter.spot? (some (Touched.restored p t)) = counter.spot? (some t)) :
    ∃ b', b.notify c (.changed (.transaction t) p) = .ok b' ∧ counter.Posts b b' none 0 := by
  have haccount := spot?_restored_eq.mp h
  refine ⟨b, ?_, fun x => by simp, fun x hx => .inl hx⟩
  rw [notify]
  cases hknown : p.account? with
  | none => rfl
  | some old =>
    rw [hknown] at haccount
    exact if_pos haccount

/-- A transaction whose old account was not counted on its own is booked as a whole. -/
theorem move_eq_ok {t : Transaction} {old : AccountId} {l : Ledger}
    (hfree : b.bookings.contains ⟨t.id, old⟩ = false)
    (h : ∀ u ∈ b.moveResults (keyOf t) (amountTerms l t), Decimal.Representable u) :
    ∃ b', b.move l t old = .ok b' ∧ counter.Moves b b' (some (spotOf ⟨t.id, old⟩))
      (counter.spot? (some t)) ((amountTerms l t).map Decimal.units).sum := by
  obtain ⟨total, htotal, htotalUnits⟩ :=
    Decimal.sum_exact fun u hu => h u (List.mem_cons_of_mem _ hu)
  obtain ⟨left, hleft, hleftUnits⟩ :=
    Decimal.sub_exact (a := (b.bookingAt (keyOf t)).amount) (b := total)
      (htotalUnits ▸ h _ List.mem_cons_self)
  rw [spot?_some, ← htotalUnits]
  refine ⟨_, ?_, moves_put hleftUnits⟩
  rw [move, if_neg (by simp [hfree]), Ledger.transactionAmount]
  change (do let total ← Decimal.sum (amountTerms l t); _) = _
  rw [htotal]
  change (do let left ← (b.bookingAt (keyOf t)).amount.sub total; _) = _
  rw [hleft]
  rfl

/-- A transaction that moved is booked as a whole. -/
theorem transaction_moved {t : Transaction} {p : Previous}
    (h : b.Exact c (.changed (.transaction t) p))
    (hmoved : counter.spot? (some (Touched.restored p t)) ≠ counter.spot? (some t))
    (hfree : ∀ x, counter.spot? (some (Touched.restored p t)) = some x → ¬ counter.Booked b x) :
    ∃ b', b.notify c (.changed (.transaction t) p) = .ok b' ∧
      counter.Moves b b' (counter.spot? (some (Touched.restored p t))) (counter.spot? (some t))
        ((amountTerms c.ledger t).map Decimal.units).sum := by
  have haccount := mt spot?_restored_eq.mpr hmoved
  rw [Exact, results] at h
  rw [notify]
  cases hknown : p.account? with
  | none =>
    rw [hknown] at haccount
    exact absurd rfl haccount
  | some old =>
    rw [hknown] at haccount h
    have hold : counter.spot? (some (Touched.restored p t)) = some (spotOf ⟨t.id, old⟩) := by
      rw [spot?_some, keyOf, Touched.restored, hknown]
      rfl
    have hmoved : old ≠ t.account := haccount
    simp only [if_neg hmoved] at h ⊢
    rw [hold]
    exact move_eq_ok (Bool.eq_false_iff.mpr (hfree _ hold)) h

/-- A notice whose additions are exact is taken in, whatever the categories are. -/
theorem notify_exists_ok {n : Notice} (h : b.Exact c n) : ∃ b', b.notify c n = .ok b' := by
  match n with
  | .added (.entry e) => exact (addEntryAmount_posts h).imp fun _ h => h.1
  | .deleted (.entry e) p => exact (entry_deleted h).imp fun _ h => h.1
  | .changed (.entry e) p => exact (entry_changed h).imp fun _ h => h.1
  | .changed (.transaction t) p =>
    rw [Exact, results] at h
    rw [notify]
    cases hknown : p.account? with
    | none => exact ⟨b, rfl⟩
    | some old =>
      rw [hknown] at h
      by_cases hmoved : old = t.account
      · exact ⟨b, if_pos hmoved⟩
      · simp only [if_neg hmoved] at h ⊢
        cases hbooked : b.bookings.contains ⟨t.id, old⟩ with
        | true => exact ⟨b, by rw [move, if_pos hbooked]; rfl⟩
        | false => exact (move_eq_ok hbooked h).imp fun _ h => h.1
  | .added (.transaction t) | .deleted (.transaction t) p => exact ⟨_, rfl⟩
  | .added (.lot _) | .changed (.lot _) _ | .deleted (.lot _) _ => exact ⟨b, rfl⟩
  | .added (.stockSplit _ _) | .changed (.stockSplit _ _) _ | .deleted (.stockSplit _ _) _ =>
    exact ⟨b, rfl⟩
  | .added (.other _) | .changed (.other _) _ | .deleted (.other _) _ => exact ⟨b, rfl⟩

/-- Balances are a count, in which a transaction takes along what counts in its balance. -/
def counting (c : ReportContext) : Counting c Balances AccountId where
  toCounter := counter
  notify b n := b.notify c n
  Exact b n := b.Exact c n
  taken t := ((amountTerms c.ledger t).map Decimal.units).sum
  entry_added h := addEntryAmount_posts h
  entry_changed h := entry_changed h
  entry_deleted h := entry_deleted h
  transaction_added _ := ⟨_, rfl, addCount_posts _ _ _⟩
  transaction_deleted _ := ⟨_, rfl, addCount_posts _ _ _⟩
  transaction_stayed _ h := transaction_stayed h
  transaction_moved h hmoved hfree := transaction_moved h hmoved hfree
  ignored {b n} hentry htransaction := by
    obtain ⟨e⟩ | ⟨e, p⟩ | ⟨e, p⟩ := n <;> cases e <;>
      first | rfl | exact absurd rfl hentry | exact absurd rfl htransaction

/-! ## Summaries -/

/-- Whether a booking is added to the summary of its account without rounding. -/
def SummaryExact (summaries : Register AccountSummary) (booking : Booking) : Prop :=
  Decimal.Representable
    (((summaries.get? booking.key.account).map fun s => s.balanceDelta.units).getD 0 +
      booking.amount.units)

instance (summaries : Register AccountSummary) (booking : Booking) :
    Decidable (SummaryExact summaries booking) :=
  inferInstanceAs (Decidable (Decimal.Representable _))

/-- What summaries say about an account: nothing if it has none. -/
def told (summaries : Register AccountSummary) (account : AccountId) : Int × Int :=
  ((summaries.get? account).map fun s => (s.balanceDelta.units, s.countDelta)).getD 0

theorem summarize_exact {summaries : Register AccountSummary} {booking : Booking}
    (h : SummaryExact summaries booking) : ∃ summaries', summarize summaries booking = .ok summaries' ∧
      ∀ account, told summaries' account =
        told summaries account + if booking.key.account = account then figures booking else 0 := by
  set s := (summaries.get? booking.key.account).getD ⟨booking.key.account, 0, 0⟩ with hs
  have hunits : s.balanceDelta.units =
      ((summaries.get? booking.key.account).map fun s => s.balanceDelta.units).getD 0 := by
    rw [hs]
    cases summaries.get? booking.key.account <;> rfl
  have htold : told summaries booking.key.account = (s.balanceDelta.units, s.countDelta) := by
    rw [told, hs]
    cases summaries.get? booking.key.account <;> rfl
  have hkey : s.account = booking.key.account := by
    rw [hs]
    cases hfound : summaries.get? booking.key.account with
    | none => rfl
    | some found => exact Register.key_of_get? hfound
  rw [SummaryExact, ← hunits] at h
  obtain ⟨sum, hsum, hsumUnits⟩ := Decimal.add_exact h
  refine ⟨summaries.put { s with balanceDelta := sum, countDelta := s.countDelta + booking.count },
    ?_, fun account => ?_⟩
  · rw [summarize]
    simp only [← hs, hsum]
    rfl
  · rw [told, Register.get?_put_of_key (j := booking.key.account) hkey]
    by_cases haccount : booking.key.account = account
    · subst haccount
      rw [if_pos rfl, if_pos rfl, htold, Option.map_some, Option.getD_some, hsumUnits]
      rfl
    · rw [if_neg (Ne.symm haccount), if_neg haccount, add_zero]
      rfl

/-- No transaction is ever without an account. -/
theorem missedAt_eq_zero (before after : Ledger) (account : AccountId) :
    counter.missedAt before after account = 0 := by
  refine List.sum_eq_zero fun v hv => ?_
  obtain ⟨t, -, rfl⟩ := List.mem_map.mp hv
  rw [Counter.missed]
  cases after.transaction? t.id <;> simp [spot?_some]

/-- The summaries add up what was counted at each account. -/
theorem summaries_eq_ok (hexact : Throughout summarize SummaryExact .empty b.bookings.items) :
    ∃ summaries, b.summaries = .ok summaries ∧ ∀ account, told summaries account =
      (b.bookings.items.map fun x => if (spotOf (Keyed.key x)).2 = account then figures x else 0).sum := by
  obtain ⟨summaries, hsummaries, htold⟩ := foldlM_collect told
    (fun booking => booking.key.account) figures (fun _ _ h => summarize_exact h) hexact
  exact ⟨summaries, hsummaries, fun account => (htold account).trans (zero_add _)⟩

/-- The summaries say how much the amounts at an account went up, and the number of transactions. -/
theorem summaries_exact {before after : Ledger}
    (htally : ∀ x, counter.tally b x = counter.outcome before after x)
    (hexact : Throughout summarize SummaryExact .empty b.bookings.items) :
    ∃ summaries, b.summaries = .ok summaries ∧ ∀ account, told summaries account =
      counter.position after account - counter.position before account := by
  obtain ⟨summaries, hsummaries, htold⟩ := summaries_eq_ok hexact
  refine ⟨summaries, hsummaries, fun account => ?_⟩
  have hsum := Counter.sum_items_of_outcome b.bookings spotOf (f := figures) htally account
  rw [missedAt_eq_zero, sub_zero] at hsum
  exact (htold account).trans hsum

end Balances

end Lotbook
