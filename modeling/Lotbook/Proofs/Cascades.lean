/-
# Lotbook.Proofs.Cascades -- what goes when a transaction is deleted

A transaction takes its entries along, each of them the other leg of its transfer, each leg its lots, and
the legs the transactions that have no other entries. What is left is said entry by entry, lot by lot and
transaction by transaction (`Ledger.Cut`): deleting one entry makes one cut, cuts in a row are a cut
(`Ledger.Cut.trans`), and in the end the transaction itself is taken out (`Session.deleteTransaction_cascade`).
-/
import Lotbook.Proofs.Mirrors
import Lotbook.Proofs.Procedures

namespace Lotbook

/-! ## Transactions that lose entries -/

namespace Transaction

/-- The transaction after entries were taken off it. -/
def without (gone : List EntryId) (t : Transaction) : Transaction :=
  { t with details := t.details.filter fun i => !gone.contains i }

/-- Whether the transaction had entries, and has none without those that are gone. -/
def EmptiedBy (gone : List EntryId) (t : Transaction) : Prop :=
  t.details ≠ [] ∧ (t.without gone).details = []

instance (gone : List EntryId) (t : Transaction) : Decidable (t.EmptiedBy gone) :=
  inferInstanceAs (Decidable (_ ∧ _))

/-- What is left of a transaction when entries are gone: nothing, if they were all it had. -/
def leftBy (gone : List EntryId) (t : Transaction) : Option Transaction :=
  if t.EmptiedBy gone then none else some (t.without gone)

variable {gone gone' : List EntryId} {t : Transaction}

theorem emptiedBy_iff : t.EmptiedBy gone ↔ t.details ≠ [] ∧ ∀ i ∈ t.details, i ∈ gone := by
  simp [EmptiedBy, without, List.filter_eq_nil_iff]

theorem without_without : (t.without gone).without gone' = t.without (gone ++ gone') := by
  simp only [without, List.filter_filter, List.contains_append, Bool.not_or, Bool.and_comm]

theorem mem_without {i : EntryId} : i ∈ (t.without gone).details ↔ i ∈ t.details ∧ i ∉ gone := by
  simp [without]

/-- Where a transaction is not emptied at first, it is emptied later if it is emptied by both. -/
theorem emptiedBy_append (hfirst : ¬ t.EmptiedBy gone) :
    t.EmptiedBy (gone ++ gone') ↔ (t.without gone).EmptiedBy gone' := by
  rw [emptiedBy_iff] at hfirst
  rw [emptiedBy_iff, emptiedBy_iff]
  constructor
  · rintro ⟨hne, hall⟩
    obtain ⟨i, hi, hkept⟩ : ∃ i ∈ t.details, i ∉ gone := by
      by_contra hnone
      exact hfirst ⟨hne, fun i hi => by_contra fun hkept => hnone ⟨i, hi, hkept⟩⟩
    refine ⟨List.ne_nil_of_mem (mem_without.mpr ⟨hi, hkept⟩), fun j hj => ?_⟩
    obtain ⟨hj, hkept⟩ := mem_without.mp hj
    exact (List.mem_append.mp (hall j hj)).resolve_left hkept
  · rintro ⟨hne, hall⟩
    obtain ⟨i, hi⟩ := List.exists_mem_of_ne_nil _ hne
    refine ⟨List.ne_nil_of_mem (mem_without.mp hi).1, fun j hj => ?_⟩
    by_cases hgone : j ∈ gone
    · exact List.mem_append_left _ hgone
    · exact List.mem_append_right _ (hall j (mem_without.mpr ⟨hj, hgone⟩))

/-- A transaction is emptied at once or step by step. -/
theorem leftBy_append : (t.leftBy gone).bind (·.leftBy gone') = t.leftBy (gone ++ gone') := by
  by_cases hfirst : t.EmptiedBy gone
  · have hboth : t.EmptiedBy (gone ++ gone') := by
      obtain ⟨hne, hall⟩ := emptiedBy_iff.mp hfirst
      exact emptiedBy_iff.mpr ⟨hne, fun i hi => List.mem_append_left _ (hall i hi)⟩
    rw [leftBy, if_pos hfirst, leftBy, if_pos hboth]
    rfl
  · rw [leftBy, if_neg hfirst, Option.bind_some, leftBy, leftBy, without_without]
    simp only [emptiedBy_append hfirst]

/-- Entries that are not among those of a transaction do not matter to it. -/
theorem without_of_disjoint (h : ∀ i ∈ t.details, i ∉ gone) : t.without gone = t := by
  have hkept : ∀ i ∈ t.details, (!gone.contains i) = true := by
    intro i hi
    simpa using h i hi
  rw [without, List.filter_eq_self.mpr hkept]

theorem leftBy_of_disjoint (h : ∀ i ∈ t.details, i ∉ gone) : t.leftBy gone = some t := by
  have hnot : ¬ t.EmptiedBy gone := by
    intro hempty
    obtain ⟨hne, hall⟩ := emptiedBy_iff.mp hempty
    obtain ⟨i, hi⟩ := List.exists_mem_of_ne_nil _ hne
    exact h i hi (hall i hi)
  rw [leftBy, if_neg hnot, without_of_disjoint h]

end Transaction

namespace Ledger

variable {l l₁ l₂ : Ledger} {id : TransactionId} {gone gone' : List EntryId}

/-! ## Cuts -/

/-- Entries are gone, and with them the lots that they are part of. What became of transactions is
left open; all else is as it was. -/
structure EntriesGone (l : Ledger) (gone : List EntryId) (l₁ : Ledger) : Prop where
  same : l₁ = { l with transactions := l₁.transactions, entries := l₁.entries, lots := l₁.lots }
  entry?_eq : ∀ i, l₁.entry? i = if i ∈ gone then none else l.entry? i
  lot?_eq : ∀ key, l₁.lot? key =
    if key.purchase ∈ gone ∨ key.sale ∈ gone then none else l.lot? key

/-- All transactions are without the entries, and none is gone. -/
structure TakenOff (l : Ledger) (gone : List EntryId) (l₁ : Ledger) : Prop
    extends EntriesGone l gone l₁ where
  transaction?_eq : ∀ i, l₁.transaction? i = (l.transaction? i).map (·.without gone)

/-- The transactions are gone that the entries were all the entries of; but one stays in any case. -/
structure Cut (l : Ledger) (stays : TransactionId) (gone : List EntryId) (l₁ : Ledger) : Prop
    extends EntriesGone l gone l₁ where
  transaction?_eq : ∀ i, l₁.transaction? i =
    if i = stays then (l.transaction? i).map (·.without gone)
    else (l.transaction? i).bind (·.leftBy gone)

/-- One transaction is gone in any case, and all others that the entries were all the entries of. -/
structure WithoutTransaction (l : Ledger) (id : TransactionId) (gone : List EntryId) (l₁ : Ledger) : Prop
    extends EntriesGone l gone l₁ where
  transaction?_eq : ∀ i, l₁.transaction? i =
    if i = id then none else (l.transaction? i).bind (·.leftBy gone)

/-- The entries, each followed by the other leg of its transfer if it is a leg of one. -/
def withLegs (l : Ledger) (ids : List EntryId) : List EntryId :=
  ids.flatMap fun id => id :: (l.otherLeg? id).toList

theorem EntriesGone.revise (h : l.EntriesGone gone l₁) (transactions : Register Transaction) :
    l.EntriesGone gone { l₁ with transactions } where
  same := by rw [h.same]
  entry?_eq := h.entry?_eq
  lot?_eq := h.lot?_eq

theorem cut_nil (l : Ledger) (id : TransactionId) : l.Cut id [] l where
  same := rfl
  entry?_eq _ := rfl
  lot?_eq key := (if_neg (by simp)).symm
  transaction?_eq i := by
    have hnothing (t : Transaction) : ∀ i ∈ t.details, i ∉ ([] : List EntryId) :=
      fun _ _ => List.not_mem_nil
    simp [Transaction.without_of_disjoint (hnothing _), Transaction.leftBy_of_disjoint (hnothing _)]

/-- Cuts in a row are a cut. -/
theorem Cut.trans (h : l.Cut id gone l₁) (h' : l₁.Cut id gone' l₂) :
    l.Cut id (gone ++ gone') l₂ where
  same := by rw [h'.same, h.same]
  entry?_eq i := by
    rw [h'.entry?_eq, h.entry?_eq]
    by_cases hi : i ∈ gone <;> by_cases hi' : i ∈ gone' <;> simp [hi, hi']
  lot?_eq key := by
    rw [h'.lot?_eq, h.lot?_eq]
    simp only [List.mem_append]
    grind
  transaction?_eq i := by
    rw [h'.transaction?_eq, h.transaction?_eq]
    split
    · rw [Option.map_map]
      congr 1
      funext t
      exact Transaction.without_without
    · rw [Option.bind_assoc]
      congr 1
      funext t
      exact Transaction.leftBy_append

/-- The other leg of an entry belongs to another transaction, if there is one. -/
theorem Cut.apart (h : l.Cut id gone l₁) (hapart : l.Apart) : l₁.Apart := by
  have hbefore {i : EntryId} {e : Entry} (he : l₁.entry? i = some e) : l.entry? i = some e := by
    rw [h.entry?_eq] at he
    split at he
    · cases he
    · exact he
  intro i e other o he hother ho
  exact hapart i e other o (hbefore he) hother (hbefore ho)

/-- Where entries that are gone emptied no transaction but the one that stays, this is a cut. -/
theorem TakenOff.cut (h : l.TakenOff gone l₁)
    (hkept : ∀ i t, i ≠ id → l.transaction? i = some t → ¬ t.EmptiedBy gone) : l.Cut id gone l₁ where
  toEntriesGone := h.toEntriesGone
  transaction?_eq i := by
    rw [h.transaction?_eq]
    split
    · rfl
    · rename_i hi
      cases ht : l.transaction? i with
      | none => rfl
      | some t => rw [Option.map_some, Option.bind_some, Transaction.leftBy, if_neg (hkept i t hi ht)]

/-- Where they emptied one, it is a cut once that one is taken out. -/
theorem TakenOff.cut_erase (h : l.TakenOff gone l₁) {emptied : TransactionId} {t : Transaction}
    (ht : l.transaction? emptied = some t) (hempty : t.EmptiedBy gone) (hother : emptied ≠ id)
    (hkept : ∀ i t, i ≠ id → i ≠ emptied → l.transaction? i = some t → ¬ t.EmptiedBy gone) :
    l.Cut id gone { l₁ with transactions := l₁.transactions.erase emptied } where
  toEntriesGone := h.toEntriesGone.revise _
  transaction?_eq i := by
    rw [transaction?_erase, h.transaction?_eq]
    by_cases hi : i = emptied
    · subst hi
      rw [if_pos rfl, if_neg hother, ht, Option.bind_some, Transaction.leftBy, if_pos hempty]
    · rw [if_neg hi]
      split
      · rfl
      · rename_i hstays
        cases ht : l.transaction? i with
        | none => rfl
        | some t =>
          rw [Option.map_some, Option.bind_some, Transaction.leftBy, if_neg (hkept i t hstays hi ht)]

/-- The transaction that stayed is taken out. -/
theorem Cut.erase (h : l.Cut id gone l₁) :
    l.WithoutTransaction id gone { l₁ with transactions := l₁.transactions.erase id } where
  toEntriesGone := h.toEntriesGone.revise _
  transaction?_eq i := by
    rw [transaction?_erase, h.transaction?_eq]
    split <;> rfl

end Ledger

namespace Session

variable {s s₁ s₂ : Session} {id : EntryId}

/-! ## One entry -/

/-- Removing an entry takes it off its transaction, its lots out and its identity off its other leg. -/
theorem removeEntry_eq_ok (hs : s.ledger.Sound) (h : s.removeEntry id = .ok s₁) :
    (∀ t, s₁.ledger.transaction? t = (s.ledger.transaction? t).map (·.without [id])) ∧
      (∀ i, s₁.ledger.entry? i =
        if i = id then none else (s.ledger.entry? i).map (Ledger.unlinked · id)) ∧
      (∀ key, s₁.ledger.lot? key =
        if key.purchase = id ∨ key.sale = id then none else s.ledger.lot? key) ∧
      s₁.ledger = { s.ledger with
        transactions := s₁.ledger.transactions
        entries := s₁.ledger.entries
        lots := s₁.ledger.lots } := by
  simp only [removeEntry, bind_eq_ok_iff, pure_eq_ok_iff, Prod.exists] at h
  obtain ⟨s₂, hlots, removed, l₁, hremove, rfl⟩ := h
  obtain ⟨hsteps, hsame, hdropped⟩ := deleteLots_eq_ok hlots
  have hs₂ : s₂.ledger.Sound := (hsteps False (.entry id)).changed.sound hs
  have hentry := hs₂.paired.entry?_removeEntry hremove
  obtain ⟨e, he, -, ht, -, hlot, hl₁⟩ := Ledger.removeEntry_eq_ok hremove
  refine ⟨fun t => ?_, fun i => ?_, fun key => ?_, ?_⟩
  · have hbefore : s₂.ledger.transaction? t = s.ledger.transaction? t := by rw [hsame]; rfl
    rw [show l₁.transaction? t = _ from ht t, ← hbefore]
    cases hu : s₂.ledger.transaction? t with
    | none => exact ite_self none
    | some u =>
      split
      · simp [Ledger.withoutDetail, Transaction.without]
      · -- an entry is listed by its own transaction only
        rename_i hother
        rw [Option.map_some, Transaction.without_of_disjoint]
        intro i hi hmem
        obtain rfl := List.mem_singleton.mp hmem
        obtain ⟨x, hx, howner⟩ := hs₂.owned.detail t u hu i hi
        obtain rfl := Option.some.inj (he.symm.trans hx)
        exact hother howner
  · rw [show l₁.entry? i = _ from hentry i, hsame]
    rfl
  · rw [show l₁.lot? key = _ from hlot key]
    split
    · rfl
    · rename_i hother
      rw [hdropped, if_neg fun hmem => hother (Ledger.mem_lotsTouching_iff.mp hmem).2]
  · show l₁ = _
    rw [hl₁, hsame]

/-- An entry without another leg is removed by itself. -/
theorem removeEntry_takenOff (hs : s.ledger.Sound) {e : Entry} (he : s.ledger.entry? id = some e)
    (halone : e.related = none) (h : s.removeEntry id = .ok s₁) :
    s.ledger.TakenOff [id] s₁.ledger := by
  obtain ⟨ht, hentry, hlot, hsame⟩ := removeEntry_eq_ok hs h
  refine ⟨⟨hsame, fun i => ?_, fun key => ?_⟩, ht⟩
  · simp only [hentry, List.mem_singleton]
    split
    · rfl
    · cases hx : s.ledger.entry? i with
      | none => rfl
      | some x =>
        have hfree : x.related ≠ some id := by
          rw [ne_eq, hs.paired.related_iff he hx, halone]
          exact Option.some_ne_none i ∘ Eq.symm
        rw [Option.map_some, Ledger.unlinked, if_neg hfree]
  · simp only [hlot, List.mem_singleton]

/-- Both legs of a transfer are removed one after the other. -/
theorem removeLegs_takenOff (hs : s.ledger.Sound) {e : Entry} {other : EntryId}
    (he : s.ledger.entry? id = some e) (hrelated : e.related = some other)
    (h : s.removeEntry id = .ok s₁) (h' : s₁.removeEntry other = .ok s₂) :
    s.ledger.TakenOff [id, other] s₂.ledger := by
  have hs₁ : s₁.ledger.Sound := (removeEntry_deletes hs h).sound hs
  obtain ⟨hne, o, ho, hback, -⟩ := hs.paired id e other he hrelated
  obtain ⟨ht, hentry, hlot, hsame⟩ := removeEntry_eq_ok hs h
  have ho₁ : s₁.ledger.entry? other = some { o with related := none } := by
    rw [hentry, if_neg hne, ho, Option.map_some, Ledger.unlinked, if_pos hback]
  have hrest := removeEntry_takenOff hs₁ ho₁ rfl h'
  refine ⟨⟨?_, fun i => ?_, fun key => ?_⟩, fun t => ?_⟩
  · rw [hrest.same, hsame]
  · rw [hrest.entry?_eq, hentry]
    by_cases hi : i = id
    · simp [hi]
    · by_cases hi' : i = other
      · simp [hi']
      · -- no other entry is linked to the one that went first
        cases hx : s.ledger.entry? i with
        | none => simp
        | some x =>
          have hfree : x.related ≠ some id := by
            rw [ne_eq, hs.paired.related_iff he hx, hrelated, Option.some_inj]
            exact Ne.symm hi'
          simp [hi, hi', Ledger.unlinked, hfree]
  · rw [hrest.lot?_eq, hlot]
    simp only [List.mem_cons, List.not_mem_nil, or_false]
    grind
  · rw [hrest.transaction?_eq, ht, Option.map_map]
    congr 1
    funext t
    exact Transaction.without_without

/-- An entry that is listed by a transaction belongs to it. -/
theorem transaction_of_listed (hs : s.ledger.Sound) {owner : TransactionId} {t : Transaction}
    (ht : s.ledger.transaction? owner = some t) {i : EntryId} (hi : i ∈ t.details) {e : Entry}
    (he : s.ledger.entry? i = some e) : e.transaction = some owner := by
  obtain ⟨e', he', hbelongs⟩ := hs.owned.detail owner t ht i hi
  rwa [Option.some.inj (he.symm.trans he')]

/-- Entries that are gone empty no transactions but those that they belonged to. -/
theorem not_emptiedBy (hs : s.ledger.Sound) {gone : List EntryId} {i : TransactionId} {t : Transaction}
    (ht : s.ledger.transaction? i = some t)
    (hgone : ∀ k ∈ gone, ∃ e, s.ledger.entry? k = some e ∧ e.transaction ≠ some i) :
    ¬ t.EmptiedBy gone := by
  intro hempty
  obtain ⟨hne, hall⟩ := Transaction.emptiedBy_iff.mp hempty
  obtain ⟨k, hk⟩ := List.exists_mem_of_ne_nil _ hne
  obtain ⟨e, he, hother⟩ := hgone k (hall k hk)
  exact hother (transaction_of_listed hs ht hk he)

/-- A transaction that had nothing but the other leg of a transfer goes with it. -/
theorem removeLegs_cut (hs : s.ledger.Sound) (hapart : s.ledger.Apart) {e o : Entry}
    {owner otherOwner : TransactionId} {other : EntryId} {s₃ : Session}
    (he : s.ledger.entry? id = some e) (howner : e.transaction = some owner)
    (hrelated : e.related = some other) (ho : s.ledger.entry? other = some o)
    (howner' : o.transaction = some otherOwner) (hremove : s.removeEntry id = .ok s₂)
    (hremove' : s₂.removeEntry other = .ok s₃)
    (h : (if some otherOwner ≠ e.transaction ∧
        (s₃.ledger.transaction? otherOwner).map Transaction.details = some [] then
      s₃.removeTransaction otherOwner else pure s₃) = .ok s₁) :
    s.ledger.Cut owner [id, other] s₁.ledger := by
  have htaken := removeLegs_takenOff hs he hrelated hremove hremove'
  have hothers : otherOwner ≠ owner := by
    intro heq
    exact hapart id e other o he hrelated ho (by rw [howner', howner, heq])
  obtain ⟨_, t, howner'', ht, hmem⟩ := hs.owned.owner other o ho
  obtain rfl := Option.some.inj (howner'.symm.trans howner'')
  have hkept : ∀ i u, i ≠ owner → i ≠ otherOwner → s.ledger.transaction? i = some u →
      ¬ u.EmptiedBy [id, other] := by
    intro i u hi hi' hu
    apply not_emptiedBy hs hu
    intro k hk
    rcases List.mem_cons.mp hk with rfl | hk
    · exact ⟨e, he, fun heq => hi (Option.some.inj (heq.symm.trans howner))⟩
    · obtain rfl := List.mem_singleton.mp hk
      exact ⟨o, ho, fun heq => hi' (Option.some.inj (heq.symm.trans howner'))⟩
  have hthen : s₃.ledger.transaction? otherOwner = some (t.without [id, other]) := by
    rw [htaken.transaction?_eq, ht]
    rfl
  split at h
  · -- the other leg was all that its transaction had
    rename_i hemptied
    have hempty : (t.without [id, other]).details = [] := by
      have hdetails := hemptied.2
      rw [hthen] at hdetails
      exact Option.some.inj hdetails
    obtain ⟨-, -, rfl⟩ := removeTransaction_eq_ok
      (fun u hu => by rw [← Option.some.inj (hthen.symm.trans hu)]; exact hempty) h
    exact htaken.cut_erase ht ⟨List.ne_nil_of_mem hmem, hempty⟩ hothers hkept
  · rename_i hstays
    obtain rfl : s₃ = s₁ := pure_eq_ok_iff.mp h
    apply htaken.cut
    intro i u hi hu
    by_cases hi' : i = otherOwner
    · subst hi'
      obtain rfl := Option.some.inj (ht.symm.trans hu)
      intro hempty
      apply hstays
      refine ⟨fun heq => hothers (Option.some.inj (heq.trans howner)), ?_⟩
      rw [hthen, Option.map_some, hempty.2]
    · exact hkept i u hi hi' hu

/-- Deleting an entry cuts it off together with its other leg. -/
theorem deleteEntry_cut (hs : s.ledger.Sound) (hapart : s.ledger.Apart) {e : Entry}
    {owner : TransactionId} (he : s.ledger.entry? id = some e) (howner : e.transaction = some owner)
    (h : s.deleteEntry id = .ok s₁) :
    s.ledger.Cut owner (id :: (s.ledger.otherLeg? id).toList) s₁.ledger := by
  simp only [deleteEntry, bind_eq_ok_iff, orError_eq_ok_iff] at h
  obtain ⟨e', he', s₂, hremove, h⟩ := h
  obtain rfl := Option.some.inj (he.symm.trans he')
  cases hrelated : e.related with
  | none =>
    have hleg : s.ledger.otherLeg? id = none := (Ledger.otherLeg?_of_entry he).trans hrelated
    rw [Ledger.linkedLeg?, hleg] at h
    obtain rfl : s₂ = s₁ := pure_eq_ok_iff.mp h
    rw [hleg]
    apply (removeEntry_takenOff hs he hrelated hremove).cut
    intro i t hi ht
    apply not_emptiedBy hs ht
    intro k hk
    obtain rfl := List.mem_singleton.mp hk
    exact ⟨e, he, fun heq => hi (Option.some.inj (heq.symm.trans howner))⟩
  | some other =>
    obtain ⟨-, o, ho, -⟩ := hs.paired id e other he hrelated
    obtain rfl : o.id = other := Ledger.id_of_entry ho
    obtain ⟨otherOwner, -, howner', -, -⟩ := hs.owned.owner o.id o ho
    have hleg : s.ledger.otherLeg? id = some o.id := (Ledger.otherLeg?_of_entry he).trans hrelated
    rw [Ledger.linkedLeg?, hleg, Option.bind_some, ho] at h
    obtain ⟨s₃, hremove', h⟩ := bind_eq_ok_iff.mp h
    simp only [howner'] at h
    rw [hleg]
    exact removeLegs_cut hs hapart he howner hrelated ho howner' hremove hremove' h

/-! ## All entries of a transaction -/

/-- Deleting entries of one transaction one after the other cuts them off with their other legs. -/
theorem deleteEntries_cut (hs : s.ledger.Sound) (hapart : s.ledger.Apart) {owner : TransactionId}
    {ids : List EntryId} (hnodup : ids.Nodup)
    (hids : ∀ i ∈ ids, ∃ e, s.ledger.entry? i = some e ∧ e.transaction = some owner)
    (h : s.deleteEntries ids = .ok s₁) :
    s.ledger.Cut owner (s.ledger.withLegs ids) s₁.ledger := by
  induction ids generalizing s with
  | nil =>
    obtain rfl : s = s₁ := pure_eq_ok_iff.mp h
    exact s.ledger.cut_nil owner
  | cons i ids ih =>
    obtain ⟨hfresh, hnodup⟩ := List.nodup_cons.mp hnodup
    obtain ⟨e, he, howner⟩ := hids i List.mem_cons_self
    rw [deleteEntries, List.foldlM_cons, bind_eq_ok_iff] at h
    obtain ⟨s₂, hdelete, h⟩ := h
    rw [if_pos (by rw [he]; rfl)] at hdelete
    have hfirst := deleteEntry_cut hs hapart he howner hdelete
    -- the entries that are left are neither the one deleted nor its other leg
    have hstays : ∀ k ∈ ids, s₂.ledger.entry? k = s.ledger.entry? k := by
      intro k hk
      rw [hfirst.entry?_eq, if_neg]
      intro hgone
      rcases List.mem_cons.mp hgone with rfl | hleg
      · exact hfresh hk
      · obtain ⟨e', he', hrelated⟩ := Ledger.otherLeg?_eq_some.mp (Option.mem_toList.mp hleg)
        obtain rfl := Option.some.inj (he.symm.trans he')
        obtain ⟨x, hx, howner'⟩ := hids k (List.mem_cons_of_mem i hk)
        exact hapart i e k x he hrelated hx (howner'.trans howner.symm)
    have hrest := ih ((deleteEntry_deletes hs hdelete).sound hs) (hfirst.apart hapart) hnodup
      (fun k hk => by
        rw [hstays k hk]
        exact hids k (List.mem_cons_of_mem i hk)) h
    have hlegs : s₂.ledger.withLegs ids = s.ledger.withLegs ids := by
      apply List.flatMap_congr
      intro k hk
      rw [Ledger.otherLeg?, Ledger.otherLeg?, hstays k hk]
    rw [hlegs] at hrest
    exact hfirst.trans hrest

/-- Whatever ledger is reached, a transaction in it can be deleted. Its entries are gone then and the
other legs of their transfers, the lots on any of these, the transaction, and all transactions that such
a leg was the last entry of. What is left of other transactions lists its other entries in order; all
else is as it was. -/
theorem deleteTransaction_cascade (h : s.ledger.Reachable) {owner : TransactionId} {t : Transaction}
    (ht : s.ledger.transaction? owner = some t) :
    ∃ s₁, s.deleteTransaction owner = .ok s₁ ∧
      s.ledger.WithoutTransaction owner (s.ledger.withLegs t.details) s₁.ledger := by
  have hs := h.sound
  obtain ⟨s₁, hdelete⟩ := exists_deleteTransaction hs ht
  refine ⟨s₁, hdelete, ?_⟩
  simp only [deleteTransaction, bind_eq_ok_iff, orError_eq_ok_iff] at hdelete
  obtain ⟨t', ht', s₂, hentries, hrest⟩ := hdelete
  obtain rfl := Option.some.inj (ht.symm.trans ht')
  have hcut := deleteEntries_cut hs h.apart (hs.owned.nodup owner t ht) (hs.owned.detail owner t ht)
    hentries
  have hleft : s₂.ledger.transaction? owner = some (t.without (s.ledger.withLegs t.details)) := by
    rw [hcut.transaction?_eq, if_pos rfl, ht]
    rfl
  have hempty : (t.without (s.ledger.withLegs t.details)).details = [] := by
    apply List.eq_nil_iff_forall_not_mem.mpr
    intro i hi
    obtain ⟨hmem, hkept⟩ := Transaction.mem_without.mp hi
    exact hkept (List.mem_flatMap.mpr ⟨i, hmem, List.mem_cons_self⟩)
  rw [if_pos (by rw [hleft]; rfl)] at hrest
  obtain ⟨-, -, rfl⟩ := removeTransaction_eq_ok
    (fun u hu => by rw [← Option.some.inj (hleft.symm.trans hu)]; exact hempty) hrest
  exact hcut.erase

/-- A transaction with an entry of its own and two transfers: one is all that its other transaction
has, the other leads to a transaction from where there is another transfer. Lots link the entry to what
goes and to what stays. -/
def branching : List Ledger.Edit :=
  [.addTransaction ⟨7⟩ (.june 20) none, .addEntry ⟨1⟩ (some 1) (some 1) none,
    .addTransfer ⟨1⟩ ⟨8⟩ (some 1) none, .addTransfer ⟨1⟩ ⟨9⟩ (some 1) none,
    .addTransfer ⟨6⟩ ⟨7⟩ (some 1) none, .insertLot ⟨⟨2⟩, ⟨10⟩⟩, .insertLot ⟨⟨11⟩, ⟨8⟩⟩,
    .insertLot ⟨⟨10⟩, ⟨11⟩⟩]

theorem deleteTransaction_cascade_branching : ∃ (s s₁ : Session) (t : Transaction),
    s.ledger.Reachable ∧ s.ledger.transaction? ⟨1⟩ = some t ∧ s.deleteTransaction ⟨1⟩ = .ok s₁ ∧
      s.ledger.WithoutTransaction ⟨1⟩ (s.ledger.withLegs t.details) s₁.ledger ∧
      s.ledger.withLegs t.details = [⟨2⟩, ⟨4⟩, ⟨5⟩, ⟨7⟩, ⟨8⟩] ∧
      s₁.ledger.transactions.keys = [⟨6⟩, ⟨9⟩] ∧ s₁.ledger.entries.keys = [⟨10⟩, ⟨11⟩] ∧
      s₁.ledger.lots.keys = [⟨⟨10⟩, ⟨11⟩⟩] := by
  have hcheck : (((Ledger.new .standard).performAll branching).toOption.any fun l =>
      (l.transaction? ⟨1⟩).any fun t => ((start l).deleteTransaction ⟨1⟩).toOption.any fun s₁ =>
        l.withLegs t.details = [⟨2⟩, ⟨4⟩, ⟨5⟩, ⟨7⟩, ⟨8⟩] ∧
          s₁.ledger.transactions.keys = [⟨6⟩, ⟨9⟩] ∧ s₁.ledger.entries.keys = [⟨10⟩, ⟨11⟩] ∧
          s₁.ledger.lots.keys = [⟨⟨10⟩, ⟨11⟩⟩]) = true := by
    decide +kernel
  obtain ⟨l, hl, hcheck⟩ := exists_ok_of_any hcheck
  obtain ⟨t, ht, hcheck⟩ := (Option.any_eq_true _ _).mp hcheck
  obtain ⟨s₁, hdelete, hcheck⟩ := exists_ok_of_any hcheck
  have hreachable : (start l).ledger.Reachable := (Ledger.Reachable.new .standard).performAll hl
  obtain ⟨s₂, hdelete', hwithout⟩ := deleteTransaction_cascade hreachable ht
  obtain rfl := Except.ok.inj (hdelete.symm.trans hdelete')
  exact ⟨start l, s₁, t, hreachable, ht, hdelete, hwithout, of_decide_eq_true hcheck⟩

end Session

end Lotbook
