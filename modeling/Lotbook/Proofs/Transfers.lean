/-
# Lotbook.Proofs.Transfers -- what the two transactions of a transfer have in common

A transfer is made between transactions of one date, and of one security if it moves shares. The date
of a transaction is set together with those of its direct neighbours only, so that a chain of transfers
can be torn further down (`Ledger.tears`); the security is passed on along all transfers that move
shares, but a transfer that is given shares later is not looked at (`Ledger.mismatches`). For every
single transfer these are the only ways to lose what it had in common (`Ledger.transfer_dates`,
`Ledger.transfer_securities`).
-/
import Lotbook.Proofs.Exactness
import Lotbook.Proofs.Frames
import Lotbook.Proofs.Runs

namespace Lotbook.Ledger

variable {l l₁ : Ledger} {edit : Edit}

/-! ## Links -/

/-- Transactions are linked by the transfers between them. -/
theorem Sound.mem_linked (h : l.Sound) {id : EntryId} {e : Entry} {t t' : Transaction}
    {sharesOnly : Bool} (he : l.entry? id = some e) (hends : l.ends? id = some (t, t'))
    (hshares : sharesOnly = true → e.quantity.isSome) (hne : t'.id ≠ t.id) :
    t'.id ∈ l.linked t.id sharesOnly := by
  obtain ⟨other, hother, ht, ht'⟩ := ends?_eq_some.mp hends
  obtain ⟨e', he', hrelated⟩ := otherLeg?_eq_some.mp hother
  obtain rfl := Option.some.inj (he.symm.trans he')
  obtain ⟨-, o, ho, -⟩ := h.paired id e other he hrelated
  obtain ⟨u, hu, -, hget, hmem⟩ := h.exists_owner he
  obtain rfl := Option.some.inj (ht.symm.trans hu)
  obtain ⟨u', hu', howner', -⟩ := h.exists_owner ho
  obtain rfl := Option.some.inj (ht'.symm.trans hu')
  have hcarries : (!sharesOnly || e.quantity.isSome) = true := by
    cases sharesOnly with
    | false => rfl
    | true => simpa using hshares rfl
  rw [linked, hget]
  -- from the entries of the one transaction, by their other legs, to the owners of these
  apply List.mem_filter.mpr
  refine ⟨List.mem_filterMap.mpr ⟨o, ?_, howner'⟩, by simpa using hne⟩
  refine List.mem_filterMap.mpr ⟨other, ?_, ho⟩
  refine List.mem_filterMap.mpr ⟨e, ?_, hrelated⟩
  apply List.mem_filter.mpr
  exact ⟨List.mem_filterMap.mpr ⟨id, hmem, he⟩, hcarries⟩

/-- The other leg has the same ends, the other way round, and carries shares as well. -/
theorem Sound.exists_otherLeg (h : l.Sound) {id : EntryId} {e : Entry} {t t' : Transaction}
    (he : l.entry? id = some e) (hends : l.ends? id = some (t, t')) :
    ∃ other o, l.entry? other = some o ∧ l.ends? other = some (t', t) ∧
      (o.quantity.isSome = e.quantity.isSome) := by
  obtain ⟨other, hother, ht, ht'⟩ := ends?_eq_some.mp hends
  obtain ⟨e', he', hrelated⟩ := otherLeg?_eq_some.mp hother
  obtain rfl := Option.some.inj (he.symm.trans he')
  obtain ⟨-, o, ho, hback, -, hquantity⟩ := h.paired id e other he hrelated
  refine ⟨other, o, ho, ends?_eq_some.mpr ⟨id, otherLeg?_eq_some.mpr ⟨o, ho, hback⟩, ht', ht⟩, ?_⟩
  rw [hquantity, Option.isSome_map]

/-- What is done to some transactions is done to those of them that are ends of a transfer. -/
theorem ends?_of_revised {ids : List TransactionId} {f : Transaction → Transaction}
    (hentry : ∀ i, l₁.entry? i = l.entry? i)
    (htransaction : ∀ i, l₁.transaction? i =
      if i ∈ ids then (l.transaction? i).map f else l.transaction? i)
    {id : EntryId} {t t' : Transaction} (hends : l.ends? id = some (t, t')) :
    l₁.ends? id = some (if t.id ∈ ids then f t else t, if t'.id ∈ ids then f t' else t') := by
  have howner {i : EntryId} {t : Transaction} (ht : l.owner? i = some t) :
      l₁.owner? i = some (if t.id ∈ ids then f t else t) := by
    obtain ⟨e, owner, he, howner, hget⟩ := owner?_eq_some.mp ht
    obtain rfl : t.id = owner := id_of_transaction hget
    refine owner?_eq_some.mpr ⟨e, t.id, (hentry i).trans he, howner, ?_⟩
    rw [htransaction, hget]
    split <;> rfl
  obtain ⟨other, hother, ht, ht'⟩ := ends?_eq_some.mp hends
  refine ends?_eq_some.mpr ⟨other, ?_, howner ht, howner ht'⟩
  rw [otherLeg?, hentry]
  exact hother

/-- Edits in a row that are allowed one after the other reach a ledger by edits that are allowed. -/
theorem ReachableBy.performAll {allowed : Ledger → Edit → Prop} (h : l.ReachableBy allowed)
    {edits : List Edit} (hallowed : Throughout advance allowed l edits)
    (hedits : l.performAll edits = .ok l₁) : l₁.ReachableBy allowed := by
  induction edits generalizing l with
  | nil =>
    obtain rfl : l = l₁ := pure_eq_ok_iff.mp hedits
    exact h
  | cons edit edits ih =>
    rw [Ledger.performAll, List.foldlM_cons, bind_eq_ok_iff] at hedits
    obtain ⟨l₂, hstep, hrest⟩ := hedits
    obtain ⟨hedit, hlater⟩ := hallowed.of_cons hstep
    obtain ⟨⟨refusal, _⟩, hperform, rfl⟩ := map_eq_ok_iff.mp hstep
    exact ih (.edit h hedit hperform) hlater hrest

/-- If it does not matter what they are made on, it is enough that each of the edits is allowed. -/
theorem ReachableBy.performAll_of_forall {allowed : Edit → Prop}
    (h : l.ReachableBy fun _ edit => allowed edit) {edits : List Edit}
    (hallowed : ∀ edit ∈ edits, allowed edit) (hedits : l.performAll edits = .ok l₁) :
    l₁.ReachableBy fun _ edit => allowed edit :=
  h.performAll (.of_forall fun edit hedit _ => hallowed edit hedit) hedits

/-! ## Dates -/

/-- Redating reaches exactly the transactions given. -/
theorem transaction?_redate (l : Ledger) (date : Date) (ids : List TransactionId)
    (id : TransactionId) :
    (l.redate date ids).2.transaction? id =
      if id ∈ ids then (l.transaction? id).map fun t => { t with date } else l.transaction? id := by
  induction ids generalizing l with
  | nil => rfl
  | cons i ids ih =>
    -- the transactions after the first one is redated, whether it has to be or not
    have first (l' : Ledger) (h : ∀ j, l'.transaction? j =
        if j = i then (l.transaction? j).map fun t => { t with date } else l.transaction? j) :
        (l'.redate date ids).2.transaction? id =
          if id ∈ i :: ids then (l.transaction? id).map fun t => { t with date }
          else l.transaction? id := by
      rw [ih, h]
      by_cases hid : id = i
      · simp only [hid, if_true, List.mem_cons, true_or]
        split
        · rw [Option.map_map]
          rfl
        · rfl
      · simp only [hid, if_false, List.mem_cons, false_or]
    rw [redate]
    split
    · rename_i hnone
      refine first l fun j => ?_
      split
      · rename_i hj
        rw [hj, hnone]
        rfl
      · rfl
    · rename_i t ht
      split
      · rename_i hdate
        refine first l fun j => ?_
        split
        · rename_i hj
          rw [hj, ht, ← hdate]
          rfl
        · rfl
      · obtain rfl : t.id = i := id_of_transaction ht
        refine first _ fun j => ?_
        rw [transaction?_put]
        split
        · rename_i hj
          rw [hj, ht]
          rfl
        · rfl

/-- The transactions that get a date when it is set in one of them. -/
def redated (l : Ledger) (id : TransactionId) : List TransactionId := id :: l.linked id false

theorem transaction?_setDate {id : TransactionId} {date : Date} {changes : Changes Date}
    (h : l.setDate id date = .ok (changes, l₁)) (i : TransactionId) :
    l₁.transaction? i = if i ∈ l.redated id then (l.transaction? i).map fun t => { t with date }
      else l.transaction? i := by
  obtain ⟨l₂, hredate, -, hrederived⟩ := setDate_eq_ok h
  rw [hrederived.same]
  change l₂.transaction? i = _
  have hlookUp := transaction?_redate l date (l.redated id) i
  rw [redated, hredate] at hlookUp
  exact hlookUp

/-- Whether an edit sets a date in one of the transactions of a transfer and not in the other, which has
another date. -/
def tears (l : Ledger) (entry : EntryId) : Edit → Bool
  | .setDate id date =>
      (l.ends? entry).any fun (t, t') =>
        (l.redated id).contains t.id != (l.redated id).contains t'.id && t.date != date
  | _ => false

theorem entry?_setDate {id : TransactionId} {date : Date} {changes : Changes Date}
    (h : l.setDate id date = .ok (changes, l₁)) (i : EntryId) : l₁.entry? i = l.entry? i := by
  obtain ⟨l₂, -, hspread, hrederived⟩ := setDate_eq_ok h
  rw [hrederived.same, hspread.same]
  rfl

theorem ends?_setDate {id : TransactionId} {date : Date} {changes : Changes Date}
    (h : l.setDate id date = .ok (changes, l₁)) {entry : EntryId} {t t' : Transaction}
    (hends : l.ends? entry = some (t, t')) :
    l₁.ends? entry = some (if t.id ∈ l.redated id then { t with date } else t,
      if t'.id ∈ l.redated id then { t' with date } else t') :=
  ends?_of_revised (entry?_setDate h) (transaction?_setDate h) hends

theorem tears_setDate {entry : EntryId} {t t' : Transaction} (hends : l.ends? entry = some (t, t'))
    (id : TransactionId) (date : Date) :
    l.tears entry (.setDate id date) = true ↔
      (t.id ∈ l.redated id ↔ t'.id ∉ l.redated id) ∧ t.date ≠ date := by
  by_cases ht : t.id ∈ l.redated id <;> by_cases ht' : t'.id ∈ l.redated id <;>
    simp [tears, hends, ht, ht']

/-- Setting a date leaves the ends of a transfer on one day, or it tears them. -/
theorem dates_setDate {id : TransactionId} {date : Date} {changes : Changes Date}
    (h : l.setDate id date = .ok (changes, l₁)) {entry : EntryId}
    (hjoins : l.Joins (fun t t' => t.date = t'.date) entry) :
    if l.tears entry (.setDate id date) then l₁.Joins (fun t t' => t.date ≠ t'.date) entry
    else l₁.Joins (fun t t' => t.date = t'.date) entry := by
  obtain ⟨t, t', hends, hdate⟩ := hjoins
  have hends₁ := ends?_setDate h hends
  simp only [tears_setDate hends]
  by_cases ht : t.id ∈ l.redated id <;> by_cases ht' : t'.id ∈ l.redated id <;>
    simp only [ht, ht', if_true, if_false] at hends₁ <;>
    simp only [ht, ht', iff_true, iff_false, not_true, not_false_eq_true, false_and, true_and, if_false]
  · exact ⟨_, _, hends₁, rfl⟩
  -- only one of the two was reached
  · split
    · rename_i hne
      exact ⟨_, _, hends₁, fun heq => hne (hdate.trans heq.symm)⟩
    · rename_i heq
      exact ⟨_, _, hends₁, (Decidable.not_not.mp heq).symm.trans hdate⟩
  · split
    · rename_i hne
      exact ⟨_, _, hends₁, hne⟩
    · rename_i heq
      exact ⟨_, _, hends₁, Decidable.not_not.mp heq⟩
  · exact ⟨_, _, hends₁, hdate⟩

/-- A date that is set in one of the two ends is set in both. -/
theorem Sound.not_tears (h : l.Sound) {entry : EntryId} {t t' : Transaction}
    (hends : l.ends? entry = some (t, t')) (date : Date) :
    l.tears entry (.setDate t.id date) = false ∧ l.tears entry (.setDate t'.id date) = false := by
  obtain ⟨other, hother, -⟩ := ends?_eq_some.mp hends
  obtain ⟨e, he, -⟩ := otherLeg?_eq_some.mp hother
  obtain ⟨other', o, ho, hback, -⟩ := h.exists_otherLeg he hends
  -- an end is reached from itself, and the other end by the link
  have hreached {i : EntryId} {x : Entry} {u u' : Transaction} (hx : l.entry? i = some x)
      (hu : l.ends? i = some (u, u')) : u.id ∈ l.redated u.id ∧ u'.id ∈ l.redated u.id := by
    refine ⟨List.mem_cons_self, ?_⟩
    by_cases hid : u'.id = u.id
    · exact hid ▸ List.mem_cons_self
    · exact List.mem_cons_of_mem _ (h.mem_linked hx hu (fun h => by cases h) hid)
  obtain ⟨ht, ht'⟩ := hreached he hends
  obtain ⟨hu', hu⟩ := hreached ho hback
  simp [tears, hends, ht, ht', hu, hu']

theorem isPart_tears (entry : EntryId) (l : Ledger) (edit : Edit) (hpart : edit.isPart = true) :
    l.tears entry edit = false := by
  cases edit <;> first | rfl | cases hpart

/-- An operation that does not tear a transfer keeps its ends on one day, and a new transfer has them
there. -/
theorem Operation.dates (hs : l.Sound) (hop : Operation l edit l₁) {entry : EntryId}
    (hwhole : l.tears entry edit = false)
    (hbefore : ∀ e, l.entry? entry = some e → e.isTransfer = true →
      l.Joins (fun t t' => t.date = t'.date) entry)
    {e₁ : Entry} (he₁ : l₁.entry? entry = some e₁) (hlinked : e₁.isTransfer = true) :
    l₁.Joins (fun t t' => t.date = t'.date) entry := by
  rcases hop.entry? hs he₁ with ⟨e, he, hkeeps⟩ | ⟨-, hnew⟩
  case inr => exact (hnew hlinked).mono fun _ _ h => h.1
  have hjoins := hbefore e he (hkeeps.isTransfer hlinked)
  cases hset : edit.setsDate with
  | false =>
    obtain ⟨t, t', t₁, t₁', hends, hends₁, ht, ht'⟩ := hop.ends? hs he he₁ hlinked
    obtain ⟨u, u', hu, hdate⟩ := hjoins
    obtain ⟨rfl, rfl⟩ := Prod.mk.inj (Option.some.inj (hends.symm.trans hu))
    exact ⟨t₁, t₁', hends₁, (ht.date hset).trans (hdate.trans (ht'.date hset).symm)⟩
  | true =>
    cases hop with
    | setDate h =>
      have hafter := dates_setDate h hjoins
      rwa [hwhole] at hafter
    | _ => cases hset

theorem ReachableBy.dates {entry : EntryId}
    (h : l.ReachableBy fun l edit => l.tears entry edit = false) {e : Entry}
    (he : l.entry? entry = some e) (hlinked : e.isTransfer = true) :
    l.Joins (fun t t' => t.date = t'.date) entry := by
  revert e
  refine h.keeps (P := fun l => ∀ {e}, l.entry? entry = some e → e.isTransfer = true →
    l.Joins (fun t t' => t.date = t'.date) entry) ?_ (isPart_tears entry) ?_
  · intro settings e he
    cases he
  · intro l edit l₁ hs hbefore hwhole hop e₁ he₁ hlinked
    exact hop.dates hs hwhole (fun e he hlinked => hbefore he hlinked) he₁ hlinked

/-- An edit that tears a transfer whose ends have one date leaves them with two. -/
theorem dates_of_tears {entry : EntryId} (htears : l.tears entry edit = true)
    (hjoins : l.Joins (fun t t' => t.date = t'.date) entry)
    (hedit : l.perform edit = .ok (none, l₁)) : l₁.Joins (fun t t' => t.date ≠ t'.date) entry := by
  cases edit with
  | setDate id date =>
    obtain ⟨⟨changes, _⟩, hset, rfl⟩ := map_eq_ok_iff.mp (attempt_eq_ok_none hedit)
    have hafter := dates_setDate hset hjoins
    rwa [htears] at hafter
  | _ => cases htears

/-- An entry that has two ends is a leg of a transfer. -/
theorem exists_of_ends? {entry : EntryId} {t t' : Transaction} (hends : l.ends? entry = some (t, t')) :
    ∃ e, l.entry? entry = some e ∧ e.isTransfer = true := by
  obtain ⟨other, hother, -⟩ := ends?_eq_some.mp hends
  obtain ⟨e, he, hrelated⟩ := otherLeg?_eq_some.mp hother
  exact ⟨e, he, Option.isSome_iff_exists.mpr ⟨other, hrelated⟩⟩

theorem exists_ends_of_tears {entry : EntryId} (htears : l.tears entry edit = true) :
    ∃ t t', l.ends? entry = some (t, t') := by
  cases edit with
  | setDate id date =>
    obtain ⟨⟨t, t'⟩, hends, -⟩ := (Option.any_eq_true _ _).mp htears
    exact ⟨t, t', hends⟩
  | _ => cases htears

/-- The two transactions of a transfer have one date in every ledger that is reached without an edit that
tears them. An edit that is addressed to one of the two never does; one that does leaves them with two
dates. -/
theorem transfer_dates (entry : EntryId) :
    (∀ l : Ledger, l.ReachableBy (fun l edit => l.tears entry edit = false) →
      ∀ e, l.entry? entry = some e → e.isTransfer = true →
        l.Joins (fun t t' => t.date = t'.date) entry) ∧
    (∀ l : Ledger, l.Reachable → ∀ t t', l.ends? entry = some (t, t') → ∀ date,
      l.tears entry (.setDate t.id date) = false ∧ l.tears entry (.setDate t'.id date) = false) ∧
    ∀ l l₁ : Ledger, l.ReachableBy (fun l edit => l.tears entry edit = false) →
      ∀ edit, l.tears entry edit = true → l.perform edit = .ok (none, l₁) →
        l₁.Joins (fun t t' => t.date ≠ t'.date) entry := by
  refine ⟨fun l hl e => hl.dates, fun l hl t t' hends date => hl.sound.not_tears hends date, ?_⟩
  intro l l₁ hl edit htears hedit
  obtain ⟨t, t', hends⟩ := exists_ends_of_tears htears
  obtain ⟨e, he, hlinked⟩ := exists_of_ends? hends
  exact dates_of_tears htears (hl.dates he hlinked) hedit

/-- A transfer that hangs off another one: setting a date at the far end of the first moves the
transaction between the two and tears the second. -/
def chained : List Edit := [
  .addTransaction ⟨7⟩ (.june 20) none,
  .addTransfer ⟨1⟩ ⟨8⟩ (some (.whole 5)) none,
  .addTransfer ⟨2⟩ ⟨9⟩ (some (.whole 1)) none]

theorem transfer_dates_chained : ∃ l l₁ : Ledger,
    (l₁.ReachableBy fun l edit => l.tears ⟨3⟩ edit = false) ∧
      l₁.Joins (fun t t' => t.date = t'.date) ⟨3⟩ ∧
    l.Reachable ∧ l.tears ⟨3⟩ (.setDate ⟨1⟩ (.june 21)) = false ∧
    (l.ReachableBy fun l edit => l.tears ⟨6⟩ edit = false) ∧
      l.perform (.setDate ⟨1⟩ (.june 21)) = .ok (none, l₁) ∧
      l₁.Joins (fun t t' => t.date ≠ t'.date) ⟨6⟩ := by
  have hallowed : Throughout advance (fun l edit => l.tears ⟨3⟩ edit = false) (.new .standard)
      (chained ++ [.setDate ⟨1⟩ (.june 21)]) := by decide +kernel
  have hallowed' : Throughout advance (fun l edit => l.tears ⟨6⟩ edit = false) (.new .standard)
      chained := by decide +kernel
  have hcheck : (((Ledger.new .standard).performAll chained).toOption.any fun l =>
      (l.perform (.setDate ⟨1⟩ (.june 21))).toOption.any fun (refusal, l₁) =>
        (l.ends? ⟨3⟩).any fun (t, _) => (Ledger.entry? l₁ ⟨3⟩).any fun e =>
          refusal.isNone ∧ l.tears ⟨6⟩ (.setDate ⟨1⟩ (.june 21)) = true ∧ t.id = ⟨1⟩ ∧
            e.isTransfer = true) = true := by
    decide +kernel
  obtain ⟨l, hl, hcheck⟩ := exists_ok_of_any hcheck
  obtain ⟨⟨refusal, l₁⟩, hl₁, hcheck⟩ := exists_ok_of_any hcheck
  obtain ⟨⟨t, t'⟩, hends, hcheck⟩ := (Option.any_eq_true _ _).mp hcheck
  obtain ⟨e, he, hcheck⟩ := (Option.any_eq_true _ _).mp hcheck
  obtain ⟨hrefusal, htears, ht, hlinked⟩ := of_decide_eq_true hcheck
  obtain rfl := Option.isNone_iff_eq_none.mp hrefusal
  have hrun : (Ledger.new .standard).performAll (chained ++ [.setDate ⟨1⟩ (.june 21)]) = .ok l₁ :=
    foldlM_append_ok hl (foldlM_cons_ok (map_eq_ok_iff.mpr ⟨_, hl₁, rfl⟩) rfl)
  have hreach : l₁.ReachableBy fun l edit => l.tears ⟨3⟩ edit = false :=
    (ReachableBy.new .standard).performAll hallowed hrun
  have hreach' : l.ReachableBy fun l edit => l.tears ⟨6⟩ edit = false :=
    (ReachableBy.new .standard).performAll hallowed' hl
  have hreachable : l.Reachable := hreach'.reachable
  refine ⟨l, l₁, hreach, (transfer_dates ⟨3⟩).1 l₁ hreach e he hlinked, hreachable, ?_, hreach', hl₁,
    (transfer_dates ⟨6⟩).2.2 l l₁ hreach' _ htears hl₁⟩
  have hnever := ((transfer_dates ⟨3⟩).2.1 l hreachable t t' hends (.june 21)).1
  rwa [ht] at hnever

/-- Two transactions of a transfer can have different dates. -/
theorem exists_torn : ∃ (l : Ledger) (e : Entry), l.Reachable ∧ l.entry? ⟨6⟩ = some e ∧
    e.isTransfer = true ∧ l.Joins (fun t t' => t.date ≠ t'.date) ⟨6⟩ := by
  have hcheck : (((Ledger.new .standard).performAll
      (chained ++ [.setDate ⟨1⟩ (.june 21)])).toOption.any fun l => (l.entry? ⟨6⟩).any fun e =>
        (l.ends? ⟨6⟩).any fun (t, t') => e.isTransfer = true ∧ t.date ≠ t'.date) = true := by
    decide +kernel
  obtain ⟨l, hl, hcheck⟩ := exists_ok_of_any hcheck
  obtain ⟨e, he, hcheck⟩ := (Option.any_eq_true _ _).mp hcheck
  obtain ⟨⟨t, t'⟩, hends, hcheck⟩ := (Option.any_eq_true _ _).mp hcheck
  obtain ⟨hlinked, hne⟩ := of_decide_eq_true hcheck
  exact ⟨l, e, (Reachable.new .standard).performAll hl, he, hlinked, t, t', hends, hne⟩

/-! ## Securities -/

theorem nextUnvisited_eq_none {unvisited queue : List TransactionId}
    (h : nextUnvisited unvisited queue = none) : ∀ id ∈ queue, id ∉ unvisited := by
  induction queue with
  | nil => exact fun id hid => (List.not_mem_nil hid).elim
  | cons x xs ih =>
    rw [nextUnvisited] at h
    split at h
    · cases h
    · rename_i hx
      intro id hid
      rcases List.mem_cons.mp hid with rfl | hid
      · exact hx
      · exact ih h id hid

/-- In a queue, what was visited already stands in front of what comes next, and the others wait behind
it. -/
theorem nextUnvisited_eq_some {unvisited queue rest : List TransactionId} {next : TransactionId}
    (h : nextUnvisited unvisited queue = some (next, rest)) :
    ∃ visited, queue = visited ++ next :: rest ∧ ∀ id ∈ visited, id ∉ unvisited := by
  induction queue with
  | nil => cases h
  | cons x xs ih =>
    rw [nextUnvisited] at h
    split at h
    · obtain ⟨rfl, rfl⟩ := Prod.mk.inj (Option.some.inj h)
      exact ⟨[], rfl, fun _ hid => (List.not_mem_nil hid).elim⟩
    · rename_i hx
      obtain ⟨visited, rfl, hvisited⟩ := ih h
      refine ⟨x :: visited, rfl, fun id hid => ?_⟩
      rcases List.mem_cons.mp hid with rfl | hid
      · exact hx
      · exact hvisited id hid

/-- What a queue holds is visited already, comes next or waits behind it. -/
theorem mem_of_nextUnvisited {unvisited queue rest : List TransactionId} {next : TransactionId}
    (h : nextUnvisited unvisited queue = some (next, rest)) {id : TransactionId} (hid : id ∈ queue) :
    id ∉ unvisited ∨ id = next ∨ id ∈ rest := by
  obtain ⟨visited, rfl, hvisited⟩ := nextUnvisited_eq_some h
  rcases List.mem_append.mp hid with hid | hid
  · exact .inl (hvisited id hid)
  · exact .inr (List.mem_cons.mp hid)

/-- Links are a matter of entries and of what the transactions list. -/
theorem linked_put_security {id : TransactionId} {t : Transaction} (ht : l.transaction? id = some t)
    (security : Option SecurityId) (i : TransactionId) (sharesOnly : Bool) :
    linked { l with transactions := l.transactions.put { t with security } } i sharesOnly =
      l.linked i sharesOnly := by
  obtain rfl : t.id = id := id_of_transaction ht
  rw [linked, linked, transaction?_put]
  by_cases hi : i = t.id
  · simp only [hi, if_true, ht]
    rfl
  · simp only [hi, if_false]
    rfl

/-- The transaction has the security, if it is there. -/
def HasSecurity (l : Ledger) (security : Option SecurityId) (id : TransactionId) : Prop :=
  ∀ t, l.transaction? id = some t → t.security = security

theorem Spread.hasSecurity {security : Option SecurityId} {changes : Changes (Option SecurityId)}
    (h : Spread securityField security l l₁ changes) {id : TransactionId}
    (hid : l.HasSecurity security id) : l₁.HasSecurity security id := by
  intro t₁ ht₁
  rw [h.transaction?_eq] at ht₁
  split at ht₁
  · obtain ⟨t, -, rfl⟩ := Option.map_eq_some_iff.mp ht₁
    rfl
  · exact hid t₁ ht₁

theorem eq_or_notMem_of_notMem_erase {unvisited : List TransactionId} {next id : TransactionId}
    (hid : id ∉ unvisited.erase next) : id = next ∨ id ∉ unvisited := by
  by_cases h : id = next
  · exact .inl h
  · right
    intro hmem
    exact hid ((List.mem_erase_of_ne h).mpr hmem)

theorem hasSecurity_of_mem_queue {security : Option SecurityId}
    {unvisited queue rest : List TransactionId} {next : TransactionId}
    (hnext : nextUnvisited unvisited queue = some (next, rest))
    (hvisited : ∀ id, id = next ∨ id ∉ unvisited → l.HasSecurity security id)
    (hrest : ∀ id ∈ rest, l.HasSecurity security id) :
    ∀ id ∈ queue, l.HasSecurity security id := by
  intro id hid
  rcases mem_of_nextUnvisited hnext hid with hid | hid | hid
  · exact hvisited id (.inr hid)
  · exact hvisited id (.inl hid)
  · exact hrest id hid

/-- If whatever was visited has the security, so has in the end whatever was in the queue, and whatever
is linked by shares to a transaction that was changed. -/
theorem spreadSecurity_reaches (l : Ledger) (source : TransactionId) (security : Option SecurityId)
    (unvisited queue : List TransactionId)
    (hvisited : ∀ id, id ∉ unvisited → l.HasSecurity security id) :
    (∀ id ∈ queue, (l.spreadSecurity source security unvisited queue).2.HasSecurity security id) ∧
    ∀ c ∈ (l.spreadSecurity source security unvisited queue).1, ∀ id ∈ l.linked c.1 true,
      (l.spreadSecurity source security unvisited queue).2.HasSecurity security id := by
  -- along the walk: what is visited keeps the security, and what is linked to a change waits in the queue
  fun_induction l.spreadSecurity source security unvisited queue with
  | case1 l unvisited queue hnext =>
    refine ⟨fun id hid => hvisited id (nextUnvisited_eq_none hnext id hid), ?_⟩
    intro c hc
    exact (List.not_mem_nil hc).elim
  | case2 l unvisited queue next rest hnext _ hnone ih =>
    have hspread := spreadSecurity_spread l source security (unvisited.erase next) rest
    have hnow : ∀ id, id = next ∨ id ∉ unvisited → l.HasSecurity security id := by
      rintro id (rfl | hid)
      · intro t ht
        simp [hnone] at ht
      · exact hvisited id hid
    obtain ⟨hqueue, hlinked⟩ := ih fun id hid => hnow id (eq_or_notMem_of_notMem_erase hid)
    refine ⟨hasSecurity_of_mem_queue hnext ?_ hqueue, hlinked⟩
    intro id hid
    exact hspread.hasSecurity (hnow id hid)
  | case3 l unvisited queue next rest hnext _ t ht heq queue' ih =>
    -- the transaction has the security already
    have hspread := spreadSecurity_spread l source security (unvisited.erase next) queue'
    have hnow : ∀ id, id = next ∨ id ∉ unvisited → l.HasSecurity security id := by
      rintro id (rfl | hid)
      · intro t' ht'
        obtain rfl := Option.some.inj (ht.symm.trans ht')
        exact heq
      · exact hvisited id hid
    obtain ⟨hqueue, hlinked⟩ := ih fun id hid => hnow id (eq_or_notMem_of_notMem_erase hid)
    have hrest : ∀ id ∈ rest, id ∈ queue' := by
      intro id hid
      show id ∈ if _ then _ else _
      split
      · exact List.mem_append_left _ hid
      · exact hid
    refine ⟨hasSecurity_of_mem_queue hnext ?_ fun id hid => hqueue id (hrest id hid), hlinked⟩
    intro id hid
    exact hspread.hasSecurity (hnow id hid)
  | case4 l unvisited queue next rest hnext _ t ht hne l₁ queue' changes l₂ heq ih =>
    -- the transaction is changed, and those that are linked to it are put in the queue
    obtain rfl : t.id = next := id_of_transaction ht
    have hspread := spreadSecurity_spread l₁ source security (unvisited.erase t.id) queue'
    rw [heq] at hspread ih
    have hlink := linked_put_security ht security
    have hnow : ∀ id, id = t.id ∨ id ∉ unvisited → l₁.HasSecurity security id := by
      intro id hid t₁ ht₁
      have hput := transaction?_put l { t with security } id
      rw [show l₁.transaction? id = _ from hput] at ht₁
      split at ht₁
      · obtain rfl := Option.some.inj ht₁
        rfl
      · rename_i hother
        exact hvisited id (hid.resolve_left hother) t₁ ht₁
    obtain ⟨hqueue, hlinked⟩ := ih fun id hid => hnow id (eq_or_notMem_of_notMem_erase hid)
    refine ⟨hasSecurity_of_mem_queue hnext (fun id hid => hspread.hasSecurity (hnow id hid))
      fun id hid => hqueue id (List.mem_append_left _ hid), ?_⟩
    intro c hc id hid
    rw [← hlink] at hid
    rcases List.mem_cons.mp hc with rfl | hc
    · exact hqueue id (List.mem_append_right _ hid)
    · exact hlinked c hc id hid

/-- Setting a security keeps the ends of a transfer that moves shares in one security. -/
theorem securities_setSecurity (hs : l.Sound) {id : TransactionId} {security : Option SecurityId}
    {changes : Changes (Option SecurityId)} (h : l.setSecurity id security = .ok (changes, l₁))
    {entry : EntryId} {e : Entry} (he : l.entry? entry = some e) (hshares : e.quantity.isSome)
    (hjoins : l.Joins (fun t t' => t.security = t'.security) entry) :
    l₁.Joins (fun t t' => t.security = t'.security) entry := by
  obtain ⟨l₂, hset, hspread, hrederived⟩ := setSecurity_eq_ok h
  have hentry (i : EntryId) : l₁.entry? i = l.entry? i := by
    rw [hrederived.same, hspread.same]
    rfl
  have hsame (i : TransactionId) : l₁.transaction? i = l₂.transaction? i := by
    rw [hrederived.same]
    rfl
  obtain ⟨t, t', hends, hsecurity⟩ := hjoins
  have hends₁ := ends?_of_revised hentry (fun i => (hsame i).trans (hspread.transaction?_eq i)) hends
  -- the security is passed on from one end to the other
  have passed {i : EntryId} {x : Entry} {u u' : Transaction} (hx : l.entry? i = some x)
      (hxshares : x.quantity.isSome) (hu : l.ends? i = some (u, u'))
      (hin : u.id ∈ changes.map Prod.fst) (hout : u'.id ∉ changes.map Prod.fst) :
      u'.security = security := by
    have hne : u'.id ≠ u.id := fun heq => hout (heq ▸ hin)
    have hlinked : u'.id ∈ l.linked u.id true := hs.mem_linked hx hu (fun _ => hxshares) hne
    obtain ⟨c, hc, hcu⟩ := List.mem_map.mp hin
    obtain ⟨other, -, -, hother⟩ := ends?_eq_some.mp hu
    have hget := transaction?_of_owner? hother
    have hreaches := (spreadSecurity_reaches l id security l.transactions.keys [id]
      fun i hi t ht => absurd (Register.mem_keys_iff.mpr ⟨t, ht⟩) hi).2
    rw [hset] at hreaches
    refine hreaches c hc u'.id (hcu ▸ hlinked) u' ?_
    rw [hspread.transaction?_eq, if_neg hout, hget]
  obtain ⟨other, o, ho, hback, hoshares⟩ := hs.exists_otherLeg he hends
  refine ⟨_, _, hends₁, ?_⟩
  split
  · rename_i hin
    split
    · rfl
    · rename_i hout
      exact (passed he hshares hends hin hout).symm
  · rename_i hout
    split
    · rename_i hin
      exact passed ho (hoshares.trans hshares) hback hin hout
    · exact hsecurity

/-- Setting the shares of an entry sets them in both legs and in no other entry. -/
theorem quantity_setQuantity (hs : l.Sound) {id : EntryId} {quantity previous : Option Decimal}
    (h : l.setQuantity id quantity = .ok (previous, l₁)) {entry : EntryId} {e : Entry}
    (he : l.entry? entry = some e) :
    ∃ e₁, l₁.entry? entry = some e₁ ∧ e₁.related = e.related ∧
      e₁.quantity.isSome =
        if entry = id ∨ e.related = some id then quantity.isSome else e.quantity.isSome := by
  obtain ⟨x, hx, -, rfl⟩ := setQuantity_eq_ok h
  obtain rfl : x.id = id := id_of_entry hx
  have hstored : (l.storedShares x quantity).isSome = quantity.isSome := by
    rw [storedShares]
    split
    · rw [roundShares, Option.isSome_map]
    · rfl
  have hback := hs.paired.related_iff he hx
  refine ⟨_, (entry?_reviseLegs l hx (hs.paired.related_ne hx) (by rfl) (fun _ => by rfl) entry).trans
    (congrArg _ he), ?_, ?_⟩
  · split
    · rfl
    · split <;> rfl
  · by_cases hentry : entry = x.id
    · simp [hentry, hstored]
    · by_cases hrel : e.related = some x.id <;> simp [hentry, hback, hrel, hstored]

/-- Whether an edit gives shares to a transfer that had none, between transactions of different
securities. -/
def mismatches (l : Ledger) (entry : EntryId) : Edit → Bool
  | .setQuantity id quantity =>
      quantity.isSome && (l.entry? entry).any (fun e =>
        e.quantity.isNone && decide (entry = id ∨ e.related = some id)) &&
      (l.ends? entry).any fun (t, t') => decide (t.security ≠ t'.security)
  | _ => false

theorem mismatches_setQuantity {entry id : EntryId} {e : Entry} {t t' : Transaction}
    (he : l.entry? entry = some e) (hends : l.ends? entry = some (t, t')) (quantity : Option Decimal) :
    l.mismatches entry (.setQuantity id quantity) = true ↔
      quantity.isSome = true ∧ e.quantity.isSome = false ∧ (entry = id ∨ e.related = some id) ∧
        t.security ≠ t'.security := by
  simp [mismatches, he, hends, and_assoc]

theorem isPart_mismatches (entry : EntryId) (l : Ledger) (edit : Edit) (hpart : edit.isPart = true) :
    l.mismatches entry edit = false := by
  cases edit <;> first | rfl | cases hpart

/-- If an operation leaves a transfer with shares and does not mismatch it, the transfer moved shares
before or its ends are in one security anyway. -/
theorem Operation.moves_or_aligned (hs : l.Sound) (hop : Operation l edit l₁) {entry : EntryId}
    (haligned : l.mismatches entry edit = false) {e e₁ : Entry} {t t' : Transaction}
    (he : l.entry? entry = some e) (he₁ : l₁.entry? entry = some e₁)
    (hends : l.ends? entry = some (t, t')) (hshares : e₁.quantity.isSome) :
    e.quantity.isSome = true ∨ t.security = t'.security := by
  cases hmoves : e.quantity.isSome with
  | true => exact .inl rfl
  | false =>
    right
    have hkeeps := hop.keepsEntry hs he he₁
    -- the operation gave the transfer its shares
    cases hop with
    | setQuantity h =>
      obtain ⟨x₁, hx₁, -, hquantity⟩ := quantity_setQuantity hs h he
      obtain rfl := Option.some.inj (he₁.symm.trans hx₁)
      rw [hshares] at hquantity
      split at hquantity
      · rename_i hnamed
        by_contra hne
        have hmismatches := (mismatches_setQuantity he hends _).mpr
          ⟨hquantity.symm, hmoves, hnamed, hne⟩
        simp [hmismatches] at haligned
      · rw [hmoves] at hquantity
        cases hquantity
    | _ => exact absurd (hkeeps.quantity rfl ▸ hshares) (by simp [hmoves])

/-- An operation that does not mismatch a transfer keeps its ends in one security while it moves shares,
and a new transfer of shares has them in one. -/
theorem Operation.securities (hs : l.Sound) (hop : Operation l edit l₁) {entry : EntryId}
    (haligned : l.mismatches entry edit = false)
    (hbefore : ∀ e, l.entry? entry = some e → e.isTransfer = true → e.quantity.isSome →
      l.Joins (fun t t' => t.security = t'.security) entry)
    {e₁ : Entry} (he₁ : l₁.entry? entry = some e₁) (hlinked : e₁.isTransfer = true)
    (hshares : e₁.quantity.isSome) : l₁.Joins (fun t t' => t.security = t'.security) entry := by
  rcases hop.entry? hs he₁ with ⟨e, he, hkeeps⟩ | ⟨-, hnew⟩
  case inr => exact (hnew hlinked).mono fun _ _ h => h.2 hshares
  have hlinked' := hkeeps.isTransfer hlinked
  obtain ⟨t, t', t₁, t₁', hends, hends₁, ht, ht'⟩ := hop.ends? hs he he₁ hlinked
  cases hset : edit.setsSecurity with
  | true =>
    cases hop with
    | setSecurity h =>
      have hmoves : e.quantity.isSome := hkeeps.quantity rfl ▸ hshares
      exact securities_setSecurity hs h he hmoves (hbefore e he hlinked' hmoves)
    | _ => cases hset
  | false =>
    suffices hsecurity : t.security = t'.security from
      ⟨t₁, t₁', hends₁, (ht.security hset).trans (hsecurity.trans (ht'.security hset).symm)⟩
    rcases hop.moves_or_aligned hs haligned he he₁ hends hshares with hmoves | hsecurity
    · obtain ⟨u, u', hu, hsecurity⟩ := hbefore e he hlinked' hmoves
      obtain ⟨rfl, rfl⟩ := Prod.mk.inj (Option.some.inj (hends.symm.trans hu))
      exact hsecurity
    · exact hsecurity

theorem ReachableBy.securities {entry : EntryId}
    (h : l.ReachableBy fun l edit => l.mismatches entry edit = false) {e : Entry}
    (he : l.entry? entry = some e) (hlinked : e.isTransfer = true) (hshares : e.quantity.isSome) :
    l.Joins (fun t t' => t.security = t'.security) entry := by
  revert e
  refine h.keeps (P := fun l => ∀ {e}, l.entry? entry = some e → e.isTransfer = true →
    e.quantity.isSome → l.Joins (fun t t' => t.security = t'.security) entry) ?_
      (isPart_mismatches entry) ?_
  · intro settings e he
    cases he
  · intro l edit l₁ hs hbefore haligned hop e₁ he₁ hlinked hshares
    exact hop.securities hs haligned (fun e he hlinked => hbefore he hlinked) he₁ hlinked hshares

theorem exists_of_mismatches {entry : EntryId} (hmismatches : l.mismatches entry edit = true) :
    ∃ e t t', l.entry? entry = some e ∧ l.ends? entry = some (t, t') := by
  cases edit with
  | setQuantity id quantity =>
    obtain ⟨hgiven, hends⟩ := Bool.and_eq_true_iff.mp hmismatches
    obtain ⟨-, hentry⟩ := Bool.and_eq_true_iff.mp hgiven
    obtain ⟨e, he, -⟩ := (Option.any_eq_true _ _).mp hentry
    obtain ⟨⟨t, t'⟩, hends, -⟩ := (Option.any_eq_true _ _).mp hends
    exact ⟨e, t, t', he, hends⟩
  | _ => cases hmismatches

/-- An edit that mismatches a transfer leaves it with shares, and its ends in two securities. -/
theorem Sound.securities_of_mismatches (hs : l.Sound) {entry : EntryId}
    (hmismatches : l.mismatches entry edit = true) (hedit : l.perform edit = .ok (none, l₁)) :
    (∃ e, l₁.entry? entry = some e ∧ e.isTransfer = true ∧ e.quantity.isSome) ∧
      l₁.Joins (fun t t' => t.security ≠ t'.security) entry := by
  obtain ⟨e, t, t', he, hends⟩ := exists_of_mismatches hmismatches
  cases edit with
  | setQuantity id quantity =>
    obtain ⟨hquantity, -, hnamed, hne⟩ := (mismatches_setQuantity he hends quantity).mp hmismatches
    obtain ⟨⟨previous, _⟩, hset, rfl⟩ := map_eq_ok_iff.mp (settle_eq_ok_none hedit)
    obtain ⟨e₁, he₁, hrelated, hshares⟩ := quantity_setQuantity hs hset he
    obtain ⟨x, hx, hlinked⟩ := exists_of_ends? hends
    obtain rfl := Option.some.inj (he.symm.trans hx)
    have hlinked₁ : e₁.isTransfer = true := by
      rw [Entry.isTransfer, hrelated]
      exact hlinked
    obtain ⟨u, u', t₁, t₁', hu, hends₁, ht, ht'⟩ :=
      (Operation.setQuantity hset).ends? hs he he₁ hlinked₁
    obtain ⟨rfl, rfl⟩ := Prod.mk.inj (Option.some.inj (hends.symm.trans hu))
    rw [if_pos hnamed] at hshares
    refine ⟨⟨e₁, he₁, hlinked₁, hshares.trans hquantity⟩, t₁, t₁', hends₁, ?_⟩
    intro heq
    apply hne
    exact (ht.security rfl).symm.trans (heq.trans (ht'.security rfl))
  | _ => cases hmismatches

/-- The two transactions of a transfer that moves shares have one security in every ledger that is
reached without an edit that gives the transfer shares while they have not. Such an edit leaves it with
shares between two securities. -/
theorem transfer_securities (entry : EntryId) :
    (∀ l : Ledger, l.ReachableBy (fun l edit => l.mismatches entry edit = false) →
      ∀ e, l.entry? entry = some e → e.isTransfer = true → e.quantity.isSome →
        l.Joins (fun t t' => t.security = t'.security) entry) ∧
    ∀ l l₁ : Ledger, l.Reachable →
      ∀ edit, l.mismatches entry edit = true → l.perform edit = .ok (none, l₁) →
        (∃ e, l₁.entry? entry = some e ∧ e.isTransfer = true ∧ e.quantity.isSome) ∧
          l₁.Joins (fun t t' => t.security ≠ t'.security) entry := by
  refine ⟨fun l hl e => hl.securities, ?_⟩
  intro l l₁ hl edit hmismatches hedit
  exact hl.sound.securities_of_mismatches hmismatches hedit

/-- A transfer of shares, and a transfer out of the same transaction that is given shares later. -/
def givenLater : List Edit := [
  .addSecurity "S",
  .addTransaction ⟨7⟩ (.june 20) (some ⟨1⟩),
  .addTransfer ⟨2⟩ ⟨8⟩ (some (.whole 5)) none,
  .addTransfer ⟨2⟩ ⟨9⟩ none (some (.whole 1))]

theorem transfer_securities_givenLater : ∃ l l₁ : Ledger,
    (l₁.ReachableBy fun l edit => l.mismatches ⟨7⟩ edit = false) ∧
      l₁.Joins (fun t t' => t.security = t'.security) ⟨7⟩ ∧
    l.Reachable ∧ l.mismatches ⟨4⟩ (.setQuantity ⟨4⟩ (some (.whole 1))) = true ∧
      l.perform (.setQuantity ⟨4⟩ (some (.whole 1))) = .ok (none, l₁) ∧
      l₁.Joins (fun t t' => t.security ≠ t'.security) ⟨4⟩ := by
  have hallowed : Throughout advance (fun l edit => l.mismatches ⟨7⟩ edit = false) (.new .standard)
      (givenLater ++ [.setQuantity ⟨4⟩ (some (.whole 1))]) := by decide +kernel
  have hcheck : (((Ledger.new .standard).performAll givenLater).toOption.any fun l =>
      (l.perform (.setQuantity ⟨4⟩ (some (.whole 1)))).toOption.any fun (refusal, l₁) =>
        (Ledger.entry? l₁ ⟨7⟩).any fun e => refusal.isNone ∧
          l.mismatches ⟨4⟩ (.setQuantity ⟨4⟩ (some (.whole 1))) = true ∧ e.isTransfer = true ∧
            e.quantity.isSome = true) = true := by
    decide +kernel
  obtain ⟨l, hl, hcheck⟩ := exists_ok_of_any hcheck
  obtain ⟨⟨refusal, l₁⟩, hl₁, hcheck⟩ := exists_ok_of_any hcheck
  obtain ⟨e, he, hcheck⟩ := (Option.any_eq_true _ _).mp hcheck
  obtain ⟨hrefusal, hmismatches, hlinked, hshares⟩ := of_decide_eq_true hcheck
  obtain rfl := Option.isNone_iff_eq_none.mp hrefusal
  have hrun : (Ledger.new .standard).performAll
      (givenLater ++ [.setQuantity ⟨4⟩ (some (.whole 1))]) = .ok l₁ :=
    foldlM_append_ok hl (foldlM_cons_ok (map_eq_ok_iff.mpr ⟨_, hl₁, rfl⟩) rfl)
  have hreach : l₁.ReachableBy fun l edit => l.mismatches ⟨7⟩ edit = false :=
    (ReachableBy.new .standard).performAll hallowed hrun
  have hreachable : l.Reachable := (Reachable.new .standard).performAll hl
  exact ⟨l, l₁, hreach, (transfer_securities ⟨7⟩).1 l₁ hreach e he hlinked hshares, hreachable,
    hmismatches, hl₁, ((transfer_securities ⟨4⟩).2 l l₁ hreachable _ hmismatches hl₁).2⟩

/-- A transfer can move shares between transactions of different securities. -/
theorem exists_mismatched : ∃ (l : Ledger) (e : Entry), l.Reachable ∧ l.entry? ⟨4⟩ = some e ∧
    e.isTransfer = true ∧ e.quantity.isSome = true ∧
      l.Joins (fun t t' => t.security ≠ t'.security) ⟨4⟩ := by
  have hcheck : (((Ledger.new .standard).performAll
      (givenLater ++ [.setQuantity ⟨4⟩ (some (.whole 1))])).toOption.any fun l =>
        (l.entry? ⟨4⟩).any fun e => (l.ends? ⟨4⟩).any fun (t, t') =>
          e.isTransfer = true ∧ e.quantity.isSome = true ∧ t.security ≠ t'.security) = true := by
    decide +kernel
  obtain ⟨l, hl, hcheck⟩ := exists_ok_of_any hcheck
  obtain ⟨e, he, hcheck⟩ := (Option.any_eq_true _ _).mp hcheck
  obtain ⟨⟨t, t'⟩, hends, hcheck⟩ := (Option.any_eq_true _ _).mp hcheck
  obtain ⟨hlinked, hshares, hne⟩ := of_decide_eq_true hcheck
  exact ⟨l, e, (Reachable.new .standard).performAll hl, he, hlinked, hshares, t, t', hends, hne⟩

end Lotbook.Ledger
