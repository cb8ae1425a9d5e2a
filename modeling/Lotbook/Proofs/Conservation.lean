/-
# Lotbook.Proofs.Conservation -- balances neither make nor lose money

Balances may be told of anything in any order, repeatedly, and with a different view of the ledger each
time. All that was counted by then comes to the amounts of the entries that were told of
(`Report.amount`): a transaction that moves takes its total from one booking to another, and what was
booked before is carried over. It also comes to the transactions added less those deleted, if none is
told of twice. The summaries pass both sums on (`events_conserve`).
-/
import Lotbook.Proofs.Summaries

namespace Lotbook.Balances

/-- A notice to the balances, and what they see of the ledger when it comes. -/
structure Report where
  context : ReportContext
  notice : Notice

/-- Takes in a report. -/
def take (b : Balances) (r : Report) : Except ArithmeticFault Balances := b.notify r.context r.notice

namespace Report

/-- The amount of an entry, if the transaction is found that it belongs to. -/
def counted (owner : Option Transaction) (amount : Int) : Int := (owner.map fun _ => amount).getD 0

/-- The amount that a report adds: that of an added entry, less that of a deleted one, and the
difference if the amount of an entry is known to have changed. -/
def amount (r : Report) : Int :=
  match r.notice with
  | .added (.entry e) => counted (r.context.ownerOf? e .empty) e.amountOrZero.units
  | .changed (.entry e) previous =>
      match previous.amount? with
      | some old =>
          counted (r.context.ownerOf? e .empty) (e.amountOrZero.units - (old.getD 0).units)
      | none => 0
  | .deleted (.entry e) previous =>
      counted (r.context.ownerOf? e previous) (-((previous.amount?.getD e.amount).getD 0).units)
  | _ => 0

/-- The number of transactions that a report adds. -/
def count (r : Report) : Int :=
  match r.notice with
  | .added (.transaction _) => 1
  | .deleted (.transaction _) _ => -1
  | _ => 0

/-- The transaction that a report is about, if it is about one. -/
def transaction? (r : Report) : Option TransactionId :=
  match r.notice.entity with
  | .transaction t => some t.id
  | _ => none

/-- Whether a report says that a transaction came from an account that was counted on its own already,
so that nothing is computed. -/
def skipped (b : Balances) (r : Report) : Bool :=
  match r.notice with
  | .changed (.transaction t) previous =>
      (previous.account?.map fun old => b.bookings.contains ⟨t.id, old⟩).getD false
  | _ => false

/-- Whether a report is taken in without rounding. -/
def Unrounded (b : Balances) (r : Report) : Prop :=
  r.skipped b = true ∨ b.Exact r.context r.notice

instance (b : Balances) (r : Report) : Decidable (r.Unrounded b) :=
  inferInstanceAs (Decidable (_ ∨ _))

end Report

variable {b b' : Balances} {r : Report}

/-! ## The total of all bookings -/

/-- All amounts booked, and all counts. -/
def total (b : Balances) : Int × Int := (b.bookings.items.map figures).sum

/-- A count that goes on at one spot adds that much to the total. -/
theorem total_of_posts {spot : Option (Spot AccountId)} {v : Int × Int}
    (h : counter.Posts b b' spot v) : b'.total = b.total + (spot.map fun _ => v).getD 0 := by
  have hchange (k : BookingKey) : ((b'.bookings.get? k).map figures).getD 0 =
      ((b.bookings.get? k).map figures).getD 0 +
        if k ∈ (spot.map spotOf.symm).toFinset then v else 0 := by
    have hspot : k ∈ (spot.map spotOf.symm).toFinset ↔ spot = some (spotOf k) := by
      cases spot with
      | none => simp
      | some x => simp [spotOf.eq_symm_apply, eq_comm]
    simp only [hspot]
    exact h.tally_eq (spotOf k)
  refine (Register.sum_items_of_change _ (fun _ => v) hchange).trans ?_
  cases spot with
  | none => rfl
  | some x => exact congrArg _ (Finset.sum_singleton ..)

/-- A transaction that moves leaves the amounts as they are in total: what its new booking held before
goes to the old one, next to the total that is taken from there. Only a count that it had is lost. -/
theorem total_of_moves {oldKey newKey : BookingKey} {amount : Int}
    (h : counter.Moves b b' (some (spotOf oldKey)) (some (spotOf newKey)) amount)
    (hne : oldKey ≠ newKey) (hfree : b.bookings.get? oldKey = none) :
    b'.total + (0, (b.bookingAt newKey).count) = b.total := by
  set held := figures (b.bookingAt newKey) with hheld
  have hchange (k : BookingKey) : ((b'.bookings.get? k).map figures).getD 0 =
      ((b.bookings.get? k).map figures).getD 0 + if k ∈ ({oldKey, newKey} : Finset BookingKey) then
        (if k = oldKey then (held.1 - amount, -1) else (amount, 1) - held) else 0 := by
    have hmoved := h.tally_eq (spotOf k)
    simp only [Option.some_inj, spotOf.apply_eq_iff_eq, Option.map_some, Option.getD_some] at hmoved
    refine hmoved.trans ?_
    have hbefore : ((b.bookings.get? newKey).map figures).getD 0 = held := tally_eq b newKey
    rw [tally_eq]
    by_cases hold : k = oldKey
    · subst hold
      simp [hne.symm, hfree, hheld, figures]
    · by_cases hnew : k = newKey
      · subst hnew
        simp [hold, hbefore]
      · rw [if_neg (Ne.symm hnew), if_neg (Ne.symm hold), if_neg (by simp [hold, hnew]), add_zero]
        rfl
  have hsum := Register.sum_items_of_change _ _ hchange
  rw [Finset.sum_pair hne, if_pos rfl, if_neg hne.symm] at hsum
  change b'.total = b.total + _ at hsum
  rw [hsum]
  refine Prod.ext ?_ ?_
  · show b.total.1 + (held.1 - amount + (amount - held.1)) + 0 = b.total.1
    omega
  · show b.total.2 + (-1 + (1 - held.2)) + held.2 = b.total.2
    omega

/-! ## One report -/

/-- What a report may do: it adds its amount, and its count unless the transaction that it is about was
counted before. No count of another transaction changes. -/
structure Takes (b : Balances) (r : Report) (b' : Balances) : Prop where
  amount_eq : b'.total.1 = b.total.1 + r.amount
  count_eq : (∀ key, r.transaction? = some key.transaction → (b.bookingAt key).count = 0) →
    b'.total.2 = b.total.2 + r.count
  others : ∀ key, r.transaction? ≠ some key.transaction →
    (b'.bookingAt key).count = (b.bookingAt key).count

/-- A report that changes nothing adds nothing. -/
theorem takes_refl (hamount : r.amount = 0) (hcount : r.count = 0) : Takes b r b where
  amount_eq := by rw [hamount, add_zero]
  count_eq _ := by rw [hcount, add_zero]
  others _ _ := rfl

/-- A report that is counted at one spot: a count is at one of its own transaction. -/
theorem takes_of_posts {spot : Option (Spot AccountId)} {v : Int × Int}
    (h : counter.Posts b b' spot v) (hamount : (spot.map fun _ => v.1).getD 0 = r.amount)
    (hcount : (spot.map fun _ => v.2).getD 0 = r.count)
    (hspot : v.2 ≠ 0 → ∀ x, spot = some x → r.transaction? = some x.1) : Takes b r b' where
  amount_eq := by
    rw [total_of_posts h, Prod.fst_add, ← hamount]
    cases spot <;> rfl
  count_eq _ := by
    rw [total_of_posts h, Prod.snd_add, ← hcount]
    cases spot <;> rfl
  others key hother := by
    have htally := h.tally_eq (spotOf key)
    rw [tally_eq, tally_eq] at htally
    have hcounts := congrArg Prod.snd htally
    rw [Prod.snd_add] at hcounts
    refine hcounts.trans ?_
    by_cases hv : v.2 = 0
    · split <;> simp [figures, hv]
    · rw [if_neg fun hkey => hother (hspot hv _ hkey)]
      exact add_zero _

/-- A report about a transaction that moved. -/
theorem takes_of_moves {t : Transaction} {old : AccountId} {amount : Int}
    (h : counter.Moves b b' (some (spotOf ⟨t.id, old⟩)) (some (spotOf (keyOf t))) amount)
    (hne : old ≠ t.account) (hfree : b.bookings.contains ⟨t.id, old⟩ = false)
    (hamount : r.amount = 0) (hcount : r.count = 0) (htransaction : r.transaction? = some t.id) :
    Takes b r b' := by
  have htotal := total_of_moves h (fun hkey => hne (congrArg BookingKey.account hkey))
    (Option.not_isSome_iff_eq_none.mp (Bool.eq_false_iff.mp hfree))
  refine ⟨?_, fun hzero => ?_, fun key hother => ?_⟩
  · rw [hamount, ← htotal]
    simp
  · -- the count that a moved transaction loses is one it had before
    rw [hcount, ← htotal, hzero (keyOf t) htransaction]
    simp
  · have hspot (account : AccountId) : some (spotOf ⟨t.id, account⟩) ≠ some (spotOf key) := by
      intro heq
      apply hother
      rw [htransaction, ← spotOf.injective (Option.some.inj heq)]
    have htally := (h.tally_eq (spotOf key)).trans ((if_neg (hspot t.account)).trans
      (if_neg (hspot old)))
    rw [tally_eq, tally_eq] at htally
    exact congrArg Prod.snd htally

/-- A report about an entry, whose amount goes to the transaction that it belongs to. -/
theorem takes_of_entry {owner : Option Transaction} {amount : Int}
    (h : counter.Posts b b' (counter.spot? owner) (amount, 0))
    (hamount : Report.counted owner amount = r.amount) (hcount : r.count = 0) : Takes b r b' := by
  refine takes_of_posts h ?_ ?_ fun hne => absurd rfl hne
  · rw [← hamount]
    cases owner <;> rfl
  · rw [hcount]
    cases owner <;> rfl

/-- A report about a transaction that may have moved. -/
theorem take_changed {c : ReportContext} {t : Transaction} {p : Previous}
    (h : Report.Unrounded b ⟨c, .changed (.transaction t) p⟩) :
    ∃ b', b.take ⟨c, .changed (.transaction t) p⟩ = .ok b' ∧
      Takes b ⟨c, .changed (.transaction t) p⟩ b' := by
  have hrefl : Takes b ⟨c, .changed (.transaction t) p⟩ b := takes_refl rfl rfl
  rw [Report.Unrounded, Exact, results] at h
  rw [take, notify]
  cases hknown : p.account? with
  | none => exact ⟨b, rfl, hrefl⟩
  | some old =>
    rw [hknown] at h
    by_cases hmoved : old = t.account
    · exact ⟨b, if_pos hmoved, hrefl⟩
    · simp only [if_neg hmoved] at h ⊢
      cases hbooked : b.bookings.contains ⟨t.id, old⟩ with
      | true => exact ⟨b, by rw [move, if_pos hbooked]; rfl, hrefl⟩
      | false =>
        have hskipped : Report.skipped b ⟨c, .changed (.transaction t) p⟩ = false := by
          simp [Report.skipped, hknown, hbooked]
        have hexact := h.resolve_left fun htrue => Bool.false_ne_true (hskipped.symm.trans htrue)
        obtain ⟨b', hb', hmoves⟩ := move_eq_ok hbooked hexact
        exact ⟨b', hb', takes_of_moves hmoves hmoved hbooked rfl rfl rfl⟩

/-- A report that does not round is taken in. -/
theorem take_exact (h : r.Unrounded b) : ∃ b', b.take r = .ok b' ∧ Takes b r b' := by
  obtain ⟨c, n⟩ := r
  match n with
  | .added (.entry e) =>
    obtain ⟨b', hb', hposts⟩ := addEntryAmount_posts (b := b) (h.resolve_left Bool.false_ne_true)
    exact ⟨b', hb', takes_of_entry hposts rfl rfl⟩
  | .changed (.entry e) p =>
    obtain ⟨b', hb', hposts⟩ := entry_changed (h.resolve_left Bool.false_ne_true)
    refine ⟨b', hb', takes_of_entry hposts ?_ rfl⟩
    cases hamount : p.amount? with
    | none =>
      have hsame : counter.valueOf e - counter.valueOf (e.restored p) = 0 := by
        simp [Counter.valueOf, counter, Entry.restored, hamount]
      simp only [hsame, Report.amount, hamount]
      cases c.ownerOf? e .empty <;> rfl
    | some old =>
      simp only [Report.amount, hamount]
      simp [Counter.valueOf, counter, Entry.restored, hamount, Entry.amountOrZero]
  | .deleted (.entry e) p =>
    obtain ⟨b', hb', hposts⟩ := entry_deleted (h.resolve_left Bool.false_ne_true)
    exact ⟨b', hb', takes_of_entry hposts rfl rfl⟩
  | .added (.transaction t) =>
    refine ⟨_, rfl, takes_of_posts (addCount_posts ..) rfl rfl fun _ x hx => ?_⟩
    exact congrArg (some <| Prod.fst ·) (Option.some.inj hx)
  | .deleted (.transaction t) p =>
    refine ⟨_, rfl, takes_of_posts (addCount_posts ..) rfl rfl fun _ x hx => ?_⟩
    exact congrArg (some <| Prod.fst ·) (Option.some.inj hx)
  | .changed (.transaction t) p => exact take_changed h
  | .added (.lot _) | .changed (.lot _) _ | .deleted (.lot _) _ => exact ⟨b, rfl, takes_refl rfl rfl⟩
  | .added (.stockSplit _ _) | .changed (.stockSplit _ _) _ | .deleted (.stockSplit _ _) _ =>
    exact ⟨b, rfl, takes_refl rfl rfl⟩
  | .added (.other _) | .changed (.other _) _ | .deleted (.other _) _ =>
    exact ⟨b, rfl, takes_refl rfl rfl⟩

/-! ## Any number of reports -/

variable {reports : List Report}

/-- Whatever is reported, in whatever order, the amounts booked go up by what was reported. -/
theorem foldlM_take (h : Throughout take (fun b r => r.Unrounded b) b reports) :
    ∃ b', reports.foldlM take b = .ok b' ∧
      b'.total.1 = b.total.1 + (reports.map Report.amount).sum ∧
      ((reports.filterMap Report.transaction?).Nodup →
        (∀ key : BookingKey, key.transaction ∈ reports.filterMap Report.transaction? →
          (b.bookingAt key).count = 0) →
        b'.total.2 = b.total.2 + (reports.map Report.count).sum) := by
  -- a count is lost where a transaction moves that was told of before, so those to come must have none
  induction reports generalizing b with
  | nil => exact ⟨b, rfl, by simp, fun _ _ => by simp⟩
  | cons r reports ih =>
    obtain ⟨b₁, hb₁, htakes⟩ := take_exact h.1
    obtain ⟨b', hb', hamounts, hcounts⟩ := ih (h.of_cons hb₁).2
    refine ⟨b', foldlM_cons_ok hb₁ hb', ?_, fun hnodup hzero => ?_⟩
    · rw [hamounts, htakes.amount_eq, List.map_cons, List.sum_cons, add_assoc]
    · have hrest : (reports.filterMap Report.transaction?).Nodup ∧
          ∀ id ∈ reports.filterMap Report.transaction?, r.transaction? ≠ some id := by
        rw [List.filterMap_cons] at hnodup
        cases hid : r.transaction? with
        | none => exact ⟨by simpa [hid] using hnodup, fun _ _ h => by cases h⟩
        | some id =>
          rw [hid] at hnodup
          obtain ⟨hnot, hnodup⟩ := List.nodup_cons.mp hnodup
          exact ⟨hnodup, fun i hi heq => hnot (Option.some.inj heq ▸ hi)⟩
      have hfirst : b₁.total.2 = b.total.2 + r.count := htakes.count_eq fun key hkey =>
        hzero key (List.mem_filterMap.mpr ⟨r, List.mem_cons_self, hkey⟩)
      have hlater := hcounts hrest.1 fun key hkey => by
        rw [htakes.others key (hrest.2 _ hkey)]
        obtain ⟨r', hr', hid⟩ := List.mem_filterMap.mp hkey
        exact hzero key (List.mem_filterMap.mpr ⟨r', List.mem_cons_of_mem r hr', hid⟩)
      rw [hlater, hfirst, List.map_cons, List.sum_cons, add_assoc]

/-! ## Summaries -/

/-- The balances and the counts of all summaries. -/
def summed (summaries : List AccountSummary) : Int × Int :=
  (summaries.map fun s => (s.balanceDelta.units, s.countDelta)).sum

/-- A booking is added to one summary. -/
theorem summed_summarize {summaries : Register AccountSummary} {booking : Booking}
    (h : SummaryExact summaries booking) : ∃ summaries', summarize summaries booking = .ok summaries' ∧
      summed summaries'.items = summed summaries.items + figures booking := by
  obtain ⟨summaries', hok, htold⟩ := summarize_exact h
  refine ⟨summaries', hok, ?_⟩
  have hchange (account : AccountId) : told summaries' account = told summaries account +
      if account ∈ ({booking.key.account} : Finset AccountId) then figures booking else 0 := by
    simp only [Finset.mem_singleton, htold, eq_comm]
  exact (Register.sum_items_of_change _ _ hchange).trans (congrArg _ (Finset.sum_singleton ..))

/-- The summaries come to all that was booked. -/
theorem summaries_summed (h : Throughout summarize SummaryExact .empty b.bookings.items) :
    ∃ summaries, b.summaries = .ok summaries ∧ summed summaries.items = b.total := by
  obtain ⟨summaries, hok, hsum⟩ := foldlM_collect (fun summaries (_ : Unit) => summed summaries.items)
    (fun _ => ()) figures
    (fun _ _ hx => (summed_summarize hx).imp fun _ h => ⟨h.1, fun _ => h.2⟩) h
  refine ⟨summaries, hok, (hsum ()).trans ?_⟩
  simp only [if_true]
  exact zero_add _

/-- Whether a run of reports is taken in and summarized without rounding. -/
structure RunUnrounded (reports : List Report) : Prop where
  taken : Throughout take (fun b r => r.Unrounded b) .empty reports
  summarized : ∀ b ∈ (reports.foldlM take .empty).toOption,
    Throughout summarize SummaryExact .empty b.bookings.items

instance (reports : List Report) : Decidable (RunUnrounded reports) :=
  decidable_of_iff (_ ∧ _) ⟨fun h => ⟨h.1, h.2⟩, fun h => ⟨h.taken, h.summarized⟩⟩

/-- Whatever is reported, in whatever order and against whatever ledgers, the summaries of accounts come
to the amounts of the entries reported; and if no transaction is reported twice, they come to the
transactions added less those deleted. -/
theorem events_conserve {reports : List Report} (h : RunUnrounded reports) :
    ∃ b events, reports.foldlM take .empty = .ok b ∧ b.events = .ok events ∧
      ((Event.accountSummaries events).map fun s => s.balanceDelta.units).sum =
        (reports.map Report.amount).sum ∧
      ((reports.filterMap Report.transaction?).Nodup →
        ((Event.accountSummaries events).map AccountSummary.countDelta).sum =
          (reports.map Report.count).sum) := by
  obtain ⟨b, hb, hamounts, hcounts⟩ := foldlM_take h.taken
  obtain ⟨summaries, hsummaries, hsummed⟩ := summaries_summed (h.summarized b (by rw [hb]; rfl))
  obtain ⟨events, hevents, hitems, -⟩ := events_eq_ok hsummaries
  have hpair : b.total = ((summaries.items.map fun s => s.balanceDelta.units).sum,
      (summaries.items.map AccountSummary.countDelta).sum) :=
    hsummed.symm.trans (Ledger.sum_map_pair ..)
  refine ⟨b, events, hb, hevents, ?_, fun hnodup => ?_⟩
  · rw [hitems]
    exact (congrArg Prod.fst hpair).symm.trans (hamounts.trans (zero_add _))
  · rw [hitems]
    have hcount := hcounts hnodup fun _ _ => rfl
    exact (congrArg Prod.snd hpair).symm.trans (hcount.trans (zero_add _))

/-- An entry with an amount. -/
def line (id : Int) (transaction : Option TransactionId) (amount : UInt8) : Entry :=
  ⟨⟨id⟩, transaction, some (.whole amount), none, none, none, none⟩

/-- Reports against two ledgers, between which the transaction of the entries moves: an entry grows at
the new account, the transaction moves there, another entry comes in twice at the old account, one goes
at the new account, and one that has no transaction goes unnoticed. -/
def crossing (before moved : Ledger) : List Report :=
  let old : ReportContext := ⟨before, .empty⟩
  let new : ReportContext := ⟨moved, .empty⟩
  [⟨new, .changed (.entry (line 2 (some ⟨1⟩) 9)) ⟨[.amount (some (.whole 5))]⟩⟩,
    ⟨new, .changed (.transaction ⟨⟨1⟩, ⟨9⟩, .june 20, none, none, [⟨2⟩]⟩) ⟨[.account ⟨7⟩]⟩⟩,
    ⟨old, .added (.entry (line 3 (some ⟨1⟩) 2))⟩, ⟨old, .added (.entry (line 3 (some ⟨1⟩) 2))⟩,
    ⟨new, .deleted (.entry (line 4 (some ⟨1⟩) 1)) .empty⟩, ⟨new, .added (.entry (line 5 none 6))⟩,
    ⟨new, .added (.transaction ⟨⟨8⟩, ⟨7⟩, .june 20, none, none, []⟩)⟩]

theorem events_conserve_crossing : ∃ before moved : Ledger, RunUnrounded (crossing before moved) ∧
    ((crossing before moved).filterMap Report.transaction?).Nodup ∧
      ∃ b events, (crossing before moved).foldlM take .empty = .ok b ∧ b.events = .ok events ∧
        ((Event.accountSummaries events).map fun s => s.balanceDelta.units).sum =
          (Decimal.whole 7).units ∧
        ((Event.accountSummaries events).map AccountSummary.countDelta).sum = 1 := by
  have hcheck : (((Ledger.new .standard).performAll Session.transferred).toOption.any fun before =>
      (before.performAll [.setAccount ⟨1⟩ ⟨9⟩]).toOption.any fun moved =>
        RunUnrounded (crossing before moved) ∧
          ((crossing before moved).filterMap Report.transaction?).Nodup ∧
          ((crossing before moved).map Report.amount).sum = (Decimal.whole 7).units ∧
          ((crossing before moved).map Report.count).sum = 1) = true := by
    decide +kernel
  obtain ⟨before, -, hcheck⟩ := exists_ok_of_any hcheck
  obtain ⟨moved, -, hcheck⟩ := exists_ok_of_any hcheck
  obtain ⟨hunrounded, hnodup, hamounts, hcounts⟩ := of_decide_eq_true hcheck
  obtain ⟨b, events, hb, hevents, hsum, hcount⟩ := events_conserve hunrounded
  exact ⟨before, moved, hunrounded, hnodup, b, events, hb, hevents, hsum.trans hamounts,
    (hcount hnodup).trans hcounts⟩

end Lotbook.Balances
