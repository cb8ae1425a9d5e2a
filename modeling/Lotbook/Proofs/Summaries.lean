/-
# Lotbook.Proofs.Summaries -- what a completed session says about accounts and positions

When a session completes with the standard recorders, the account summaries say by how much the
amounts of each account went up, and by how many the transactions in it
(`Session.accountSummaries_exact`). The position summaries say the same of shares, except for what
transactions that lost their security gained or lost meanwhile (`Session.positionSummaries_exact`).
Both hold as long as no addition rounds (`Session.Unrounded`).
-/
import Lotbook.Proofs.BalanceCounts
import Lotbook.Proofs.PositionCounts

namespace Lotbook

/-! ## Events -/

namespace Event

/-- The account summaries among events. -/
def accountSummaries (events : List Event) : List AccountSummary :=
  events.flatMap fun | .accountSummariesChanged summaries => summaries | _ => []

/-- The position summaries among events. -/
def positionSummaries (events : List Event) : List PositionSummary :=
  events.flatMap fun | .securitySummariesChanged summaries => summaries | _ => []

/-- What events say about an account: how its balance moved, and how many transactions it gained.
Nothing if there is no summary. -/
def accountDelta (events : List Event) (account : AccountId) : Int × Int :=
  (((accountSummaries events).find? fun s => s.account = account).map fun s =>
    (s.balanceDelta.units, s.countDelta)).getD 0

/-- What events say about a position. -/
def positionDelta (events : List Event) (place : PositionKey) : Int × Int :=
  (((positionSummaries events).find? fun s => (⟨s.account, s.security⟩ : PositionKey) = place).map
    fun s => (s.shareDelta.units, s.countDelta)).getD 0

theorem accountSummaries_append (events events' : List Event) :
    accountSummaries (events ++ events') = accountSummaries events ++ accountSummaries events' :=
  List.flatMap_append

theorem positionSummaries_append (events events' : List Event) :
    positionSummaries (events ++ events') = positionSummaries events ++ positionSummaries events' :=
  List.flatMap_append

end Event

/-- The events of a change set say nothing about accounts or positions. -/
theorem ChangeSet.eq_of_mem_events {c : ChangeSet} {e : Event} (h : e ∈ c.events) :
    ∃ entities kind keys, e = .entitiesChanged entities kind keys := by
  have hof (kind : ChangeKind) (keys : List EntityKey) (h : e ∈ eventsOf kind keys) :
      ∃ entities kind keys, e = .entitiesChanged entities kind keys := by
    obtain ⟨entities, -, h⟩ := List.mem_filterMap.mp h
    split at h
    · cases h
    · exact ⟨entities, kind, _, (Option.some.inj h).symm⟩
  rw [events, List.mem_append, List.mem_append] at h
  obtain (h | h) | h := h <;> exact hof _ _ h

theorem ChangeSet.accountSummaries_events (c : ChangeSet) : Event.accountSummaries c.events = [] := by
  refine List.flatMap_eq_nil_iff.mpr fun e he => ?_
  obtain ⟨_, _, _, rfl⟩ := eq_of_mem_events he
  rfl

theorem ChangeSet.positionSummaries_events (c : ChangeSet) :
    Event.positionSummaries c.events = [] := by
  refine List.flatMap_eq_nil_iff.mpr fun e he => ?_
  obtain ⟨_, _, _, rfl⟩ := eq_of_mem_events he
  rfl

theorem Balances.events_eq_ok {b : Balances} {summaries : Register AccountSummary}
    (h : b.summaries = .ok summaries) :
    ∃ events, b.events = .ok events ∧ Event.accountSummaries events = summaries.items ∧
      Event.positionSummaries events = [] := by
  rw [events, h]
  obtain ⟨items, hsorted⟩ := summaries
  cases items with
  | nil => exact ⟨[], rfl, rfl, rfl⟩
  | cons x xs => exact ⟨_, rfl, List.append_nil _, rfl⟩

theorem Positions.events_eq_ok {p : Positions} {summaries : Register PositionSummary}
    (h : p.summaries = .ok summaries) :
    ∃ events, p.events = .ok events ∧ Event.positionSummaries events = summaries.items ∧
      Event.accountSummaries events = [] := by
  rw [events, h]
  obtain ⟨items, hsorted⟩ := summaries
  cases items with
  | nil => exact ⟨[], rfl, rfl, rfl⟩
  | cons x xs => exact ⟨_, rfl, List.append_nil _, rfl⟩

/-! ## The standard recorders -/

namespace Recorder

variable {context : ReportContext} {notices : List Notice}

/-- The parts of the standard recorder take in notices side by side. -/
theorem notifyAll_standard {c : ChangeSet} {b b' : Balances} {p p' : Positions}
    (hb : notices.foldlM (Balances.notify context) b = .ok b')
    (hp : notices.foldlM (Positions.notify context) p = .ok p') :
    ∃ c', notifyAll context (.composite [.changes c, .balances b, .positions p]) notices =
      .ok (.composite [.changes c', .balances b', .positions p']) := by
  induction notices generalizing c b p with
  | nil =>
    obtain rfl : b = b' := pure_eq_ok_iff.mp hb
    obtain rfl : p = p' := pure_eq_ok_iff.mp hp
    exact ⟨c, rfl⟩
  | cons n notices ih =>
    rw [List.foldlM_cons, bind_eq_ok_iff] at hb hp
    obtain ⟨b₁, hb₁, hb⟩ := hb
    obtain ⟨p₁, hp₁, hp⟩ := hp
    obtain ⟨c', hrest⟩ := ih (c := c.notify context n) hb hp
    refine ⟨c', foldlM_cons_ok ?_ hrest⟩
    simp only [notify, notifyEach, hb₁, hp₁]
    rfl

end Recorder

namespace Session

variable {s : Session}

/-- A session that both counters and their summaries get through is reported, with these summaries. -/
theorem complete_standard {b : Balances} {p : Positions} {accounts : Register AccountSummary}
    {positions : Register PositionSummary}
    (hb : s.notices.foldlM (Balances.notify s.context) .empty = .ok b)
    (hp : s.notices.foldlM (Positions.notify s.context) .empty = .ok p)
    (haccounts : b.summaries = .ok accounts) (hpositions : p.summaries = .ok positions) :
    ∃ events, s.complete .standard = .ok events ∧
      Event.accountSummaries events = accounts.items ∧
      Event.positionSummaries events = positions.items := by
  obtain ⟨c, hnotify⟩ := Recorder.notifyAll_standard (c := .empty) hb hp
  obtain ⟨eb, heb, hba, hbp⟩ := Balances.events_eq_ok haccounts
  obtain ⟨ep, hep, hpp, hpa⟩ := Positions.events_eq_ok hpositions
  refine ⟨c.events ++ (eb ++ (ep ++ [])), ?_, ?_, ?_⟩
  · rw [complete, Recorder.standard, hnotify]
    change Recorder.eventsOfEach [.changes c, .balances b, .positions p] = _
    simp only [Recorder.eventsOfEach, Recorder.events, heb, hep]
    rfl
  · simp only [Event.accountSummaries_append, c.accountSummaries_events, hba, hpa]
    exact (List.append_nil _)
  · simp only [Event.positionSummaries_append, c.positionSummaries_events, hbp, hpp]
    exact (List.append_nil _)

end Session

/-! ## Accounts and positions of a ledger -/

namespace Ledger

variable {l : Ledger}

/-- The transactions in an account. -/
def transactionsIn (l : Ledger) (account : AccountId) : List Transaction :=
  l.transactions.items.filter fun t => t.account = account

/-- What the amounts of the transactions in an account come to. -/
def amountIn (l : Ledger) (account : AccountId) : Except ArithmeticFault Int := do
  return ((← (l.transactionsIn account).mapM l.transactionAmount).map Decimal.units).sum

/-- The transactions in an account that are of a security. -/
def transactionsAt (l : Ledger) (place : PositionKey) : List Transaction :=
  l.transactions.items.filter fun t => t.account = place.account ∧ t.security = some place.security

/-- What the shares of the transactions at a position come to. -/
def sharesAt (l : Ledger) (place : PositionKey) : Except ArithmeticFault Int := do
  return ((← (l.transactionsAt place).mapM l.transactionQuantity).map Decimal.units).sum

/-- By how much the shares of a transaction went up, if it is still there and has no security now. -/
def gainWithoutSecurity (before after : Ledger) (t : Transaction) : Except ArithmeticFault Int :=
  match after.transaction? t.id with
  | some now =>
      if now.security = none then do
        return (← after.transactionQuantity now).units - (← before.transactionQuantity t).units
      else .ok 0
  | none => .ok 0

/-- What the transactions at a position gained in shares, as far as they lost their security. -/
def missedSharesAt (before after : Ledger) (place : PositionKey) : Except ArithmeticFault Int :=
  return (← (before.transactionsAt place).mapM (before.gainWithoutSecurity after)).sum

/-- Whether no addition rounds that the amounts of transactions are computed with. -/
def UnroundedAmounts (l : Ledger) : Prop :=
  ∀ t ∈ l.transactions.items, ∀ u ∈ Decimal.partialSums (Balances.amountTerms l t),
    Decimal.Representable u

/-- Whether no addition rounds that the shares of transactions are computed with. -/
def UnroundedQuantities (l : Ledger) : Prop :=
  ∀ t ∈ l.transactions.items, ∀ u ∈ Decimal.partialSums (Positions.quantityTerms l t),
    Decimal.Representable u

instance (l : Ledger) : Decidable l.UnroundedAmounts :=
  inferInstanceAs (Decidable (∀ t ∈ l.transactions.items,
    ∀ u ∈ Decimal.partialSums (Balances.amountTerms l t), Decimal.Representable u))

instance (l : Ledger) : Decidable l.UnroundedQuantities :=
  inferInstanceAs (Decidable (∀ t ∈ l.transactions.items,
    ∀ u ∈ Decimal.partialSums (Positions.quantityTerms l t), Decimal.Representable u))

/-- The amount of a transaction is the total of its entries. -/
theorem transactionAmount_eq_ok (h : l.Sound) (hall : l.AllAffectBalance) (hexact : l.UnroundedAmounts)
    {t : Transaction} (ht : t ∈ l.transactions.items) :
    ∃ d, l.transactionAmount t = .ok d ∧ d.units = Balances.counter.total l t.id := by
  obtain ⟨d, hd, hunits⟩ := Decimal.sum_exact (hexact t ht)
  refine ⟨d, hd, ?_⟩
  rw [hunits, Balances.sum_amountTerms hall]
  exact Counter.sum_details h (Register.mem_items_iff.mp ht)

/-- The shares of a transaction are the total of its entries. -/
theorem transactionQuantity_eq_ok (h : l.Sound) (hexact : l.UnroundedQuantities) {t : Transaction}
    (ht : t ∈ l.transactions.items) :
    ∃ d, l.transactionQuantity t = .ok d ∧ d.units = Positions.counter.total l t.id := by
  obtain ⟨d, hd, hunits⟩ := Decimal.sum_exact (hexact t ht)
  refine ⟨d, hd, ?_⟩
  rw [hunits, Positions.sum_quantityTerms]
  exact Counter.sum_details h (Register.mem_items_iff.mp ht)

/-- Results that are all there are summed up. -/
theorem mapM_eq_ok {ε α β : Type} (xs : List α) (f : α → Except ε β) (units : β → Int)
    (total : α → Int) (h : ∀ x ∈ xs, ∃ y, f x = .ok y ∧ units y = total x) :
    ∃ ys, xs.mapM f = .ok ys ∧ (ys.map units).sum = (xs.map total).sum := by
  obtain ⟨ys, hys, hunits⟩ := exists_mapM_eq_ok h
  exact ⟨ys, hys, congrArg List.sum hunits⟩

theorem sum_map_pair {α : Type} (xs : List α) (f g : α → Int) :
    (xs.map fun x => (f x, g x)).sum = ((xs.map f).sum, (xs.map g).sum) := by
  induction xs with
  | nil => rfl
  | cons x xs ih =>
    rw [List.map_cons, List.sum_cons, ih, List.map_cons, List.sum_cons, List.map_cons, List.sum_cons]
    rfl

/-- What is counted at a place is the total of the transactions there, and their number. -/
theorem position_eq {σ P : Type} [DecidableEq P] {C : Counter σ P} {p : P} {here : Transaction → Bool}
    (h : ∀ t : Transaction, C.place? t.account t.security = some p ↔ here t = true) :
    C.position l p = (((l.transactions.items.filter here).map fun t => C.total l t.id).sum,
      ((l.transactions.items.filter here).length : Int)) := by
  have hpairs := sum_map_pair (l.transactions.items.filter here) (fun t => C.total l t.id) fun _ => 1
  rw [List.map_const', List.sum_replicate, nsmul_eq_mul, mul_one] at hpairs
  rw [Counter.position, ← hpairs, sum_map_filter (p := here)]
  · exact congrArg List.sum (List.map_congr_left fun t ht => if_pos ((h t).mpr (List.of_mem_filter ht)))
  · intro t _ ht
    rw [if_neg]
    rw [h, ht]
    exact Bool.false_ne_true

/-- What is counted at an account is the amount in it, and the number of transactions. -/
theorem position_balances (h : l.Sound) (hall : l.AllAffectBalance) (hexact : l.UnroundedAmounts)
    (account : AccountId) : ∃ amount, l.amountIn account = .ok amount ∧
      Balances.counter.position l account = (amount, ((l.transactionsIn account).length : Int)) := by
  obtain ⟨ds, hds, hsum⟩ := mapM_eq_ok (l.transactionsIn account)
    l.transactionAmount Decimal.units _ fun t ht =>
      transactionAmount_eq_ok h hall hexact (List.mem_of_mem_filter ht)
  refine ⟨_, by rw [amountIn, hds]; rfl, ?_⟩
  rw [hsum]
  exact position_eq fun t => by simp [Balances.counter]

theorem place?_eq_some_iff {t : Transaction} {place : PositionKey} :
    Positions.counter.place? t.account t.security = some place ↔
      t.account = place.account ∧ t.security = some place.security := by
  obtain ⟨account, security⟩ := place
  cases hsecurity : t.security <;> simp [Positions.counter]

/-- What is counted at a position are the shares at it, and the number of transactions. -/
theorem position_positions (h : l.Sound) (hexact : l.UnroundedQuantities) (place : PositionKey) :
    ∃ shares, l.sharesAt place = .ok shares ∧
      Positions.counter.position l place = (shares, ((l.transactionsAt place).length : Int)) := by
  obtain ⟨ds, hds, hsum⟩ := mapM_eq_ok (l.transactionsAt place)
    l.transactionQuantity Decimal.units _ fun t ht =>
      transactionQuantity_eq_ok h hexact (List.mem_of_mem_filter ht)
  refine ⟨_, by rw [sharesAt, hds]; rfl, ?_⟩
  rw [hsum]
  exact position_eq fun t => by rw [place?_eq_some_iff, decide_eq_true_iff]

/-- What is missed at a position is what transactions gained there that lost their security. -/
theorem missedAt_positions {before after : Ledger} (hbefore : before.Sound) (hafter : after.Sound)
    (hexact : before.UnroundedQuantities) (hexact' : after.UnroundedQuantities)
    (place : PositionKey) : ∃ shares, before.missedSharesAt after place = .ok shares ∧
      Positions.counter.missedAt before after place = (shares, 0) := by
  have hgain (t : Transaction) (ht : t ∈ before.transactionsAt place) :
      ∃ gain, before.gainWithoutSecurity after t = .ok gain ∧
        Positions.counter.missed before after (t.id, place) = (gain, 0) := by
    obtain ⟨hmem, hplace⟩ := List.mem_filter.mp ht
    have hbefore? : before.transaction? t.id = some t := Register.mem_items_iff.mp hmem
    have hspot : Positions.counter.spot? (before.transaction? t.id) = some (t.id, place) := by
      rw [hbefore?, Counter.spot?_eq_some, place?_eq_some_iff]
      exact ⟨rfl, of_decide_eq_true hplace⟩
    rw [gainWithoutSecurity, Counter.missed, hspot]
    cases hnow : after.transaction? t.id with
    | none => exact ⟨0, rfl, if_neg (by simp)⟩
    | some now =>
      have hid : now.id = t.id := id_of_transaction hnow
      have hmem' : now ∈ after.transactions.items :=
        Register.mem_items_iff.mpr (by rw [show Keyed.key now = t.id from hid]; exact hnow)
      obtain ⟨d, hd, hunits⟩ := transactionQuantity_eq_ok hbefore hexact hmem
      obtain ⟨d', hd', hunits'⟩ := transactionQuantity_eq_ok hafter hexact' hmem'
      cases hsecurity : now.security with
      | none =>
        refine ⟨d'.units - d.units, ?_, ?_⟩
        · simp only [hsecurity, hd, hd', if_true]
          rfl
        · rw [if_pos ⟨rfl, rfl, by simp [Counter.spot?, Positions.counter, hsecurity]⟩, hunits,
            hunits', hid]
      | some security =>
        refine ⟨0, by simp [hsecurity], if_neg ?_⟩
        simp [Counter.spot?, Positions.counter, hsecurity]
  obtain ⟨gains, hgains, hsum⟩ := mapM_eq_ok (before.transactionsAt place)
    (before.gainWithoutSecurity after) id
    (fun t => (Positions.counter.missed before after (t.id, place)).1) fun t ht => by
      obtain ⟨gain, hgain, hmissed⟩ := hgain t ht
      exact ⟨gain, hgain, by rw [hmissed]; rfl⟩
  refine ⟨gains.sum, by rw [missedSharesAt, hgains]; rfl, ?_⟩
  rw [List.map_id] at hsum
  have hpairs := sum_map_pair (before.transactionsAt place)
    (fun t => (Positions.counter.missed before after (t.id, place)).1) fun _ => 0
  rw [List.map_const', List.sum_replicate, nsmul_zero, ← hsum] at hpairs
  rw [Counter.missedAt, ← hpairs, sum_map_filter
    (p := fun t => t.account = place.account ∧ t.security = some place.security)]
  · refine congrArg List.sum (List.map_congr_left fun t ht => ?_)
    obtain ⟨gain, -, hmissed⟩ := hgain t ht
    rw [hmissed]
  · intro t ht hplace
    rw [Counter.missed, if_neg]
    rintro ⟨hspot, -⟩
    have hbefore? : before.transaction? t.id = some t := Register.mem_items_iff.mp ht
    rw [hbefore?, Counter.spot?_eq_some, place?_eq_some_iff] at hspot
    exact of_decide_eq_false hplace hspot.2

end Ledger

/-! ## Completed sessions -/

namespace Session

/-- Whether no addition rounds in reporting a session with the standard recorders: none for a notice,
and none for a summary. -/
structure Unrounded (s : Session) : Prop where
  balances : Throughout (Balances.notify s.context) (Balances.Exact s.context) .empty s.notices
  accounts : ∀ b ∈ (s.notices.foldlM (Balances.notify s.context) .empty).toOption,
    Throughout Balances.summarize Balances.SummaryExact .empty b.bookings.items
  positions : Throughout (Positions.notify s.context) (Positions.Exact s.context) .empty s.notices
  places : ∀ p ∈ (s.notices.foldlM (Positions.notify s.context) .empty).toOption,
    Throughout Positions.summarize Positions.SummaryExact .empty p.holdings.items

theorem unrounded_iff (s : Session) : s.Unrounded ↔
    (Throughout (Balances.notify s.context) (Balances.Exact s.context) .empty s.notices ∧
      ∀ b ∈ (s.notices.foldlM (Balances.notify s.context) .empty).toOption,
        Throughout Balances.summarize Balances.SummaryExact .empty b.bookings.items) ∧
    (Throughout (Positions.notify s.context) (Positions.Exact s.context) .empty s.notices ∧
      ∀ p ∈ (s.notices.foldlM (Positions.notify s.context) .empty).toOption,
        Throughout Positions.summarize Positions.SummaryExact .empty p.holdings.items) :=
  ⟨fun h => ⟨⟨h.balances, h.accounts⟩, h.positions, h.places⟩,
    fun ⟨⟨hb, ha⟩, hp, hs⟩ => ⟨hb, ha, hp, hs⟩⟩

instance (s : Session) : Decidable s.Unrounded := decidable_of_iff _ (unrounded_iff s).symm

variable {before : Ledger} {s : Session}

/-- The summaries of accounts, if all categories affect the balance. -/
theorem Settled.balances_exact (h : s.Settled before) (hall : s.ledger.AllAffectBalance)
    (hexact : s.Unrounded) :
    ∃ b summaries, s.notices.foldlM (Balances.notify s.context) .empty = .ok b ∧
      b.summaries = .ok summaries ∧ ∀ account, Balances.told summaries account =
        Balances.counter.position s.ledger account - Balances.counter.position before account := by
  obtain ⟨b, hb, htally⟩ := Counting.tally_notices (C := Balances.counting s.context) h
    (b := .empty) (fun _ => rfl) (fun _ hx => Bool.false_ne_true hx) hexact.balances
  change s.notices.foldlM (Balances.notify s.context) .empty = .ok b at hb
  have hastray (x : Spot AccountId) : (Balances.counting s.context).astray before s.ledger x = 0 :=
    Counting.astray_eq_zero fun t ht =>
      (Balances.sum_amountTerms hall t).trans (Counter.sum_details h.sound ht)
  obtain ⟨summaries, hsummaries, htold⟩ :=
    Balances.summaries_exact (fun x => (htally x).trans (by rw [hastray, add_zero]; rfl))
      (hexact.accounts b (by rw [hb]; rfl))
  exact ⟨b, summaries, hb, hsummaries, htold⟩

/-- The summaries of positions. -/
theorem Settled.positions_exact (h : s.Settled before) (hexact : s.Unrounded) :
    ∃ p summaries, s.notices.foldlM (Positions.notify s.context) .empty = .ok p ∧
      p.summaries = .ok summaries ∧ ∀ place, Positions.told summaries place =
        Positions.counter.position s.ledger place - Positions.counter.position before place -
          Positions.counter.missedAt before s.ledger place := by
  obtain ⟨p, hp, htally⟩ := Counting.tally_notices (C := Positions.counting s.context) h
    (b := .empty) (fun _ => rfl) (fun _ hx => Bool.false_ne_true hx) hexact.positions
  change s.notices.foldlM (Positions.notify s.context) .empty = .ok p at hp
  have hastray (x : Spot PositionKey) : (Positions.counting s.context).astray before s.ledger x = 0 :=
    Counting.astray_eq_zero fun t ht => Counter.sum_details h.sound ht
  obtain ⟨summaries, hsummaries, htold⟩ :=
    Positions.summaries_exact (fun x => (htally x).trans (by rw [hastray, add_zero]; rfl))
      (hexact.places p (by rw [hp]; rfl))
  exact ⟨p, summaries, hp, hsummaries, htold⟩

/-- Balances that are not rounded are summed up, whatever the categories are. -/
theorem Unrounded.balances_exists_ok (h : s.Unrounded) :
    ∃ b summaries, s.notices.foldlM (Balances.notify s.context) .empty = .ok b ∧
      b.summaries = .ok summaries := by
  obtain ⟨b, hb⟩ := h.balances.exists_ok fun _ _ => Balances.notify_exists_ok
  obtain ⟨summaries, hsummaries⟩ := (h.accounts b (by rw [hb]; rfl)).exists_ok fun _ _ hx =>
    (Balances.summarize_exact hx).imp fun _ h => h.1
  exact ⟨b, summaries, hb, hsummaries⟩

/-- The account summaries of a session are the difference that it made. -/
theorem accountSummaries_exact {edits : List Edit} (hbefore : before.Reachable)
    (hall : before.AllAffectBalance) (hrun : Run KeepsAffecting (start before) edits s)
    (hamounts : before.UnroundedAmounts) (hamounts' : s.ledger.UnroundedAmounts)
    (hexact : s.Unrounded) :
    ∃ events, s.complete .standard = .ok events ∧
      ((Event.accountSummaries events).map AccountSummary.account).Nodup ∧
      ∀ account, ∃ was now, before.amountIn account = .ok was ∧ s.ledger.amountIn account = .ok now ∧
        Event.accountDelta events account = (now - was,
          ((s.ledger.transactionsIn account).length : Int) - (before.transactionsIn account).length) := by
  have h := hrun.settled hbefore
  have hall' := hrun.allAffectBalance h.before_sound hall
  obtain ⟨b, accounts, hb, haccounts, htold⟩ := h.balances_exact hall' hexact
  obtain ⟨p, positions, hp, hpositions, -⟩ := h.positions_exact hexact
  obtain ⟨events, hcomplete, hevents, -⟩ := complete_standard hb hp haccounts hpositions
  refine ⟨events, hcomplete, ?_, fun account => ?_⟩
  · rw [hevents]
    exact accounts.nodup_keys
  · obtain ⟨was, hwas, hposition⟩ := Ledger.position_balances h.before_sound hall hamounts account
    obtain ⟨now, hnow, hposition'⟩ := Ledger.position_balances h.sound hall' hamounts' account
    refine ⟨was, now, hwas, hnow, ?_⟩
    have hdelta : Event.accountDelta events account = Balances.told accounts account := by
      rw [Event.accountDelta, hevents]
      rfl
    rw [hdelta, htold, hposition, hposition']
    rfl

/-- A transaction with an entry and a transfer to another account. -/
def transferred : List Ledger.Edit :=
  [.addTransaction ⟨7⟩ (.june 20) none, .addEntry ⟨1⟩ (some (.whole 5)) none none,
    .addTransfer ⟨1⟩ ⟨8⟩ (some (.whole 3)) none]

/-- The transaction moves while its entries are resized, another one is added with a category, a third
does not stay, and one edit is refused. -/
def relocated : List Edit :=
  [.setAccount ⟨1⟩ ⟨9⟩, .setAmount ⟨2⟩ (some (.whole 4)), .setAmount ⟨5⟩ (some (.whole 2)),
    .addCategory "C" true none,
    .addTransaction ⟨7⟩ (.june 21) none, .addEntry ⟨7⟩ (some 1) none (some ⟨6⟩),
    .setAccount ⟨99⟩ ⟨9⟩, .addTransaction ⟨8⟩ (.june 21) none, .setAccount ⟨9⟩ ⟨7⟩,
    .deleteTransaction ⟨9⟩]

theorem accountSummaries_exact_relocated :
    ∃ before s, before.Reachable ∧ Run KeepsAffecting (start before) relocated s ∧
      ∃ events, s.complete .standard = .ok events ∧ ∀ account, ∃ was now,
        before.amountIn account = .ok was ∧ s.ledger.amountIn account = .ok now ∧
          Event.accountDelta events account = (now - was,
            ((s.ledger.transactionsIn account).length : Int) -
              (before.transactionsIn account).length) := by
  have hcheck : (((Ledger.new .standard).performAll transferred).toOption.any fun before =>
      ((start before).performAll relocated).toOption.any fun s =>
        before.AllAffectBalance ∧ before.UnroundedAmounts ∧ s.ledger.UnroundedAmounts ∧
          s.Unrounded) = true := by
    decide +kernel
  obtain ⟨before, htransferred, hcheck⟩ := exists_ok_of_any hcheck
  obtain ⟨s, hrelocated, hcheck⟩ := exists_ok_of_any hcheck
  obtain ⟨hall, hamounts, hamounts', hexact⟩ := of_decide_eq_true hcheck
  have hkeeps : ∀ edit ∈ relocated, ∀ s, KeepsAffecting s edit := by
    intro edit hedit s code affectsBalance action heq
    fin_cases hedit <;> cases heq
    rfl
  have hbefore := (Ledger.Reachable.new .standard).performAll htransferred
  have hrun := Run.of_performAll hkeeps hrelocated
  obtain ⟨events, hcomplete, -, hdelta⟩ :=
    accountSummaries_exact hbefore hall hrun hamounts hamounts' hexact
  exact ⟨before, s, hbefore, hrun, events, hcomplete, hdelta⟩

/-- The position summaries of a session are the difference that it made, less what transactions that
lost their security gained in shares. -/
theorem positionSummaries_exact {allowed : Session → Edit → Prop} {edits : List Edit}
    (hbefore : before.Reachable) (hrun : Run allowed (start before) edits s)
    (hquantities : before.UnroundedQuantities) (hquantities' : s.ledger.UnroundedQuantities)
    (hexact : s.Unrounded) :
    ∃ events, s.complete .standard = .ok events ∧
      ((Event.positionSummaries events).map Keyed.key).Nodup ∧
      ∀ place, ∃ was now missed, before.sharesAt place = .ok was ∧ s.ledger.sharesAt place = .ok now ∧
        before.missedSharesAt s.ledger place = .ok missed ∧
        Event.positionDelta events place = (now - was - missed,
          ((s.ledger.transactionsAt place).length : Int) - (before.transactionsAt place).length) := by
  have h := hrun.settled hbefore
  obtain ⟨b, accounts, hb, haccounts⟩ := hexact.balances_exists_ok
  obtain ⟨p, positions, hp, hpositions, htold⟩ := h.positions_exact hexact
  obtain ⟨events, hcomplete, -, hevents⟩ := complete_standard hb hp haccounts hpositions
  refine ⟨events, hcomplete, ?_, fun place => ?_⟩
  · rw [hevents]
    exact positions.nodup_keys
  · obtain ⟨was, hwas, hposition⟩ := Ledger.position_positions h.before_sound hquantities place
    obtain ⟨now, hnow, hposition'⟩ := Ledger.position_positions h.sound hquantities' place
    obtain ⟨missed, hmissed, hmissedAt⟩ :=
      Ledger.missedAt_positions h.before_sound h.sound hquantities hquantities' place
    refine ⟨was, now, missed, hwas, hnow, hmissed, ?_⟩
    have hdelta : Event.positionDelta events place = Positions.told positions place := by
      rw [Event.positionDelta, hevents]
      rfl
    rw [hdelta, htold, hposition, hposition', hmissedAt]
    refine Prod.ext rfl ?_
    exact sub_zero _

/-- Two transactions with shares, one of them of a security. -/
def held : List Ledger.Edit :=
  [.addSecurity "S", .addTransaction ⟨7⟩ (.june 20) (some ⟨1⟩),
    .addEntry ⟨2⟩ none (some (.whole 10)) none, .addTransaction ⟨7⟩ (.june 20) none,
    .addEntry ⟨4⟩ none (some (.whole 3)) none]

/-- One transaction loses its security while its shares change, and the other gains one. -/
def swapped : List Edit :=
  [.setSecurity ⟨2⟩ none, .setQuantity ⟨3⟩ (some (.whole 4)), .setSecurity ⟨4⟩ (some ⟨1⟩),
    .setQuantity ⟨5⟩ (some (.whole 2))]

theorem positionSummaries_exact_swapped :
    ∃ before s, before.Reachable ∧ Run (fun _ _ => True) (start before) swapped s ∧
      ∃ events, s.complete .standard = .ok events ∧ ∀ place, ∃ was now missed,
        before.sharesAt place = .ok was ∧ s.ledger.sharesAt place = .ok now ∧
          before.missedSharesAt s.ledger place = .ok missed ∧
          Event.positionDelta events place = (now - was - missed,
            ((s.ledger.transactionsAt place).length : Int) -
              (before.transactionsAt place).length) := by
  have hcheck : (((Ledger.new .standard).performAll held).toOption.any fun before =>
      ((start before).performAll swapped).toOption.any fun s =>
        before.UnroundedQuantities ∧ s.ledger.UnroundedQuantities ∧ s.Unrounded) = true := by
    decide +kernel
  obtain ⟨before, hheld, hcheck⟩ := exists_ok_of_any hcheck
  obtain ⟨s, hswapped, hcheck⟩ := exists_ok_of_any hcheck
  obtain ⟨hquantities, hquantities', hexact⟩ := of_decide_eq_true hcheck
  have hbefore := (Ledger.Reachable.new .standard).performAll hheld
  have hrun := Run.of_performAll (fun _ _ _ => trivial) hswapped
  obtain ⟨events, hcomplete, -, hdelta⟩ :=
    positionSummaries_exact hbefore hrun hquantities hquantities' hexact
  exact ⟨before, s, hbefore, hrun, events, hcomplete, hdelta⟩

/-- The position summaries of a session need not be the difference that it made: of ten shares that
are no longer there, only four are reported. -/
theorem exists_missed :
    ∃ before s, before.Reachable ∧ Run (fun _ _ => True) (start before)
        [.setSecurity ⟨2⟩ none, .setQuantity ⟨3⟩ (some (.whole 4))] s ∧ s.Unrounded ∧
      before.sharesAt ⟨⟨7⟩, ⟨1⟩⟩ = .ok (Decimal.whole 10).units ∧
      s.ledger.sharesAt ⟨⟨7⟩, ⟨1⟩⟩ = .ok 0 ∧
      ∃ events, s.complete .standard = .ok events ∧
        Event.positionDelta events ⟨⟨7⟩, ⟨1⟩⟩ = (-(Decimal.whole 4).units, -1) := by
  have hcheck : (((Ledger.new .standard).performAll held).toOption.any fun before =>
      ((start before).performAll
          [.setSecurity ⟨2⟩ none, .setQuantity ⟨3⟩ (some (.whole 4))]).toOption.any fun s =>
        (s.complete .standard).toOption.any fun events =>
          s.Unrounded ∧ (before.sharesAt ⟨⟨7⟩, ⟨1⟩⟩).toOption = some (Decimal.whole 10).units ∧
            (s.ledger.sharesAt ⟨⟨7⟩, ⟨1⟩⟩).toOption = some 0 ∧
            Event.positionDelta events ⟨⟨7⟩, ⟨1⟩⟩ = (-(Decimal.whole 4).units, -1)) = true := by
    decide +kernel
  obtain ⟨before, hheld, hcheck⟩ := exists_ok_of_any hcheck
  obtain ⟨s, hedits, hcheck⟩ := exists_ok_of_any hcheck
  obtain ⟨events, hcomplete, hcheck⟩ := exists_ok_of_any hcheck
  obtain ⟨hexact, hwas, hnow, hdelta⟩ := of_decide_eq_true hcheck
  exact ⟨before, s, (Ledger.Reachable.new .standard).performAll hheld,
    Run.of_performAll (fun _ _ _ => trivial) hedits, hexact, toOption_eq_some_iff.mp hwas,
    toOption_eq_some_iff.mp hnow, events, hcomplete, hdelta⟩

end Session

end Lotbook
