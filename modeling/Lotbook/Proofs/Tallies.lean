/-
# Lotbook.Proofs.Tallies -- counting by increments and counting from scratch

Balances and positions are counted in the same way: each entry adds its value at the place of its
transaction, each transaction adds one, and a transaction that moved takes its whole value along. What
such a count needs of its notices is said once (`Counting`). Counting the notices of a session from
nothing then gives, for each transaction and place, what the transaction amounts to there in the end
less what it amounted to in the beginning (`Counting.tally_notices`). Only where a transaction lost its
place altogether is the old value taken to be the new one; and where it takes along another value than its
entries have, the difference is booked at its old place, and goes astray (`Counting.astray`).
-/
import Lotbook.Proofs.Exactness
import Lotbook.Proofs.Reports
import Mathlib.Algebra.BigOperators.Group.Finset.Sigma
import Mathlib.Algebra.Group.Prod

namespace Lotbook

/-- An entry with the amount and the shares that it had before. -/
def Entry.restored (p : Previous) (e : Entry) : Entry :=
  { e with amount := p.amount?.getD e.amount, quantity := p.quantity?.getD e.quantity }

/-! ## Counters -/

/-- A transaction and a place that it may be counted at. -/
abbrev Spot (P : Type) := TransactionId × P

/-- What is counted: the values of entries, at the places of their transactions, and with them the
transactions themselves. -/
structure Counter (σ P : Type) where
  place? : AccountId → Option SecurityId → Option P
  value : Option Decimal → Option Decimal → Int
  /-- The value and the number of transactions counted at a spot. -/
  tally : σ → Spot P → Int × Int
  /-- Whether anything was counted at a spot, if only zero. -/
  Booked : σ → Spot P → Prop

namespace Counter

variable {σ P : Type} (C : Counter σ P)

/-- The numbers that are there add up to what all come to, where none counts as zero. -/
theorem sum_filterMap_units {α : Type} (value : α → Option Decimal) (xs : List α) :
    ((xs.filterMap value).map Decimal.units).sum = (xs.map fun x => ((value x).getD 0).units).sum := by
  induction xs with
  | nil => rfl
  | cons x xs ih =>
    rw [List.filterMap_cons, List.map_cons, List.sum_cons, ← ih]
    cases value x with
    | none => exact (Int.zero_add _).symm
    | some d => rfl

/-- The value of an entry. -/
def valueOf (e : Entry) : Int := C.value e.amount e.quantity

/-- The spot of a transaction, if there is one and it has a place. -/
def spot? (t : Option Transaction) : Option (Spot P) :=
  t.bind fun t => (C.place? t.account t.security).map fun p => (t.id, p)

variable {C}

theorem spot?_eq_some {t : Transaction} {x : Spot P} :
    C.spot? (some t) = some x ↔ t.id = x.1 ∧ C.place? t.account t.security = some x.2 := by
  obtain ⟨T, p⟩ := x
  simp only [spot?, Option.bind_some, Option.map_eq_some_iff, Prod.mk.injEq]
  constructor
  · rintro ⟨q, hq, rfl, rfl⟩
    exact ⟨rfl, hq⟩
  · rintro ⟨rfl, hp⟩
    exact ⟨p, hp, rfl, rfl⟩

/-- Transactions with the same number and the same fields have the same spot. -/
theorem spot?_congr {t t' : Transaction} (hid : t.id = t'.id) (h : t.facts = t'.facts) :
    C.spot? (some t) = C.spot? (some t') := by
  simp only [Transaction.facts, List.cons.injEq, FieldValue.account.injEq,
    FieldValue.security.injEq] at h
  simp only [spot?, Option.bind_some, hid, h]

variable (C) [DecidableEq P]

/-- A count that goes on at one spot. -/
structure Posts (s s' : σ) (spot : Option (Spot P)) (v : Int × Int) : Prop where
  tally_eq : ∀ x, C.tally s' x = C.tally s x + if spot = some x then v else 0
  booked : ∀ x, C.Booked s' x → C.Booked s x ∨ spot = some x

/-- Counts at one spot, one after the other, add up. -/
theorem Posts.trans {C : Counter σ P} {s s₁ s₂ : σ} {spot : Option (Spot P)} {v w : Int × Int}
    (h : C.Posts s s₁ spot v) (h' : C.Posts s₁ s₂ spot w) : C.Posts s s₂ spot (v + w) where
  tally_eq x := by
    rw [h'.tally_eq, h.tally_eq, add_assoc]
    split
    · rfl
    · rw [add_zero]
  booked x hx := (h'.booked x hx).elim (h.booked x) .inr

/-- What is counted nowhere is nothing at every spot. -/
theorem Posts.of_nowhere {C : Counter σ P} {s s' : σ} {v : Int × Int} (h : C.Posts s s' none v)
    (spot : Option (Spot P)) : C.Posts s s' spot 0 where
  tally_eq x := by
    rw [h.tally_eq, if_neg (by simp), ite_self]
  booked x hx := .inl ((h.booked x hx).resolve_right fun h => by cases h)

/-- A count in which a transaction is moved as a whole: the new spot has its value, and the old one has
what was counted at the new one before, less that value. -/
structure Moves (s s' : σ) (old new : Option (Spot P)) (total : Int) : Prop where
  tally_eq : ∀ x, C.tally s' x =
    if new = some x then (total, 1)
    else if old = some x then ((new.map fun y => (C.tally s y).1).getD 0 - total, -1)
    else C.tally s x
  booked : ∀ x, C.Booked s' x → C.Booked s x ∨ new = some x ∨ old = some x

end Counter

/-- A counter that takes in notices about a ledger. Each law is about a notice that is taken in without
rounding. -/
structure Counting (c : ReportContext) (σ P : Type) [DecidableEq P] extends Counter σ P where
  notify : σ → Notice → Except ArithmeticFault σ
  Exact : σ → Notice → Prop
  /-- What a transaction takes along when it moves. -/
  taken : Transaction → Int
  entry_added : ∀ {s e}, Exact s (.added (.entry e)) → ∃ s',
    notify s (.added (.entry e)) = .ok s' ∧
      toCounter.Posts s s' (toCounter.spot? (c.ownerOf? e .empty)) (toCounter.valueOf e, 0)
  entry_changed : ∀ {s e p}, Exact s (.changed (.entry e) p) → ∃ s',
    notify s (.changed (.entry e) p) = .ok s' ∧
      toCounter.Posts s s' (toCounter.spot? (c.ownerOf? e .empty))
        (toCounter.valueOf e - toCounter.valueOf (e.restored p), 0)
  entry_deleted : ∀ {s e p}, Exact s (.deleted (.entry e) p) → ∃ s',
    notify s (.deleted (.entry e) p) = .ok s' ∧
      toCounter.Posts s s' (toCounter.spot? (c.ownerOf? e p)) (-toCounter.valueOf (e.restored p), 0)
  transaction_added : ∀ {s t}, Exact s (.added (.transaction t)) → ∃ s',
    notify s (.added (.transaction t)) = .ok s' ∧
      toCounter.Posts s s' (toCounter.spot? (some t)) (0, 1)
  transaction_deleted : ∀ {s t p}, Exact s (.deleted (.transaction t) p) → ∃ s',
    notify s (.deleted (.transaction t) p) = .ok s' ∧
      toCounter.Posts s s' (toCounter.spot? (some (Touched.restored p t))) (0, -1)
  transaction_stayed : ∀ {s t p}, Exact s (.changed (.transaction t) p) →
    toCounter.spot? (some (Touched.restored p t)) = toCounter.spot? (some t) → ∃ s',
    notify s (.changed (.transaction t) p) = .ok s' ∧ toCounter.Posts s s' none 0
  transaction_moved : ∀ {s t p}, Exact s (.changed (.transaction t) p) →
    toCounter.spot? (some (Touched.restored p t)) ≠ toCounter.spot? (some t) →
    (∀ x, toCounter.spot? (some (Touched.restored p t)) = some x → ¬ Booked s x) → ∃ s',
    notify s (.changed (.transaction t) p) = .ok s' ∧
      toCounter.Moves s s' (toCounter.spot? (some (Touched.restored p t)))
        (toCounter.spot? (some t)) (taken t)
  ignored : ∀ {s n}, n.entity.key.kind ≠ .entry → n.entity.key.kind ≠ .transaction →
    notify s n = .ok s

namespace Session

/-! ## Sessions that recorders see -/

/-- What a report rests on: the ledgers at both ends of a session are sound, the journal is faithful
under every key but those of lots, and no entry went over to another transaction. -/
structure Settled (before : Ledger) (s : Session) : Prop where
  before_sound : before.Sound
  sound : s.ledger.Sound
  nodup : s.journal.keys.Nodup
  filed : s.journal.Filed
  tracks : ∀ key : EntityKey, key.kind ≠ .lot → Tracks False before key s
  owner : ∀ id e e', before.entry? id = some e → s.ledger.entry? id = some e' →
    e'.transaction = e.transaction

theorem Run.settled {allowed : Session → Edit → Prop} {before : Ledger} {edits : List Edit}
    {s : Session} (hrun : Run allowed (start before) edits s) (h : before.Reachable) :
    Settled before s where
  before_sound := h.sound
  sound := (hrun.changed h.sound).sound h.sound
  nodup := hrun.nodup_keys h.sound
  filed := (hrun.journal h.sound).filed fun _ ht => (List.not_mem_nil ht).elim
  tracks key hkey :=
    (hrun.steps h.sound (fun hlot => absurd hlot hkey) (not_slips hkey)).tracks
      (tracks_start h.sound key)
  owner id e e' he he' := by
    rcases (hrun.changed h.sound).owner h.sound he' with ⟨e₀, he₀, hsame⟩ | hnew
    · obtain rfl := Option.some.inj (he.symm.trans he₀)
      exact hsame
    · exact absurd (h.sound.given.entry id e he) (Int.not_le.mpr hnew)

namespace Settled

variable {before : Ledger} {s : Session}

theorem due (h : Settled before s) {key : EntityKey} (hkey : key ∈ s.journal.keys)
    (hkind : key.kind ≠ .lot) : Due False before s.ledger key (s.group key) :=
  (h.tracks key hkind).due_group hkey

theorem facts?_eq (h : Settled before s) {key : EntityKey} (hkey : key ∉ s.journal.keys)
    (hkind : key.kind ≠ .lot) : s.ledger.facts? key = before.facts? key := by
  by_contra hne
  exact hkey ((h.tracks key hkind).mem_keys not_false hne)

/-- A removed transaction is recorded with its last state under its own number. -/
theorem key_of_lastState? (h : Settled before s) {t : Touched} (ht : t ∈ s.journal.records)
    {x : Transaction} (hx : t.lastState? = some (.transaction x)) : t.key = .transaction x.id := by
  cases hremoved : t.removed with
  | none =>
    rw [Touched.lastState?, hremoved] at hx
    cases hx
  | some last =>
    obtain ⟨e, he, hkey, -⟩ := Touched.lastState?_of_removed hremoved
    obtain rfl := Option.some.inj (hx.symm.trans he)
    exact (h.filed t ht last hremoved).symm.trans hkey.symm

/-- A transaction that is in the ledger is shown as it is. -/
theorem context_of_some {s : Session} {id : TransactionId} {t : Transaction}
    (ht : s.ledger.transaction? id = some t) : s.context.transaction? id = some t := by
  rw [ReportContext.transaction?, context, ht]
  rfl

theorem nodup_removed (h : Settled before s) :
    ((s.journal.records.filterMap fun t =>
      match t.lastState? with
      | some (.transaction x) => some x
      | _ => none).map Keyed.key).Nodup := by
  have hkeys : (s.journal.records.map Touched.key).Nodup := h.nodup
  have hfiled := fun t ht x hx => h.key_of_lastState? (t := t) (x := x) ht hx
  generalize s.journal.records = records at hkeys hfiled
  induction records with
  | nil => exact .nil
  | cons t rest ih =>
    obtain ⟨hnot, hrest⟩ := List.nodup_cons.mp hkeys
    have ih := ih hrest fun u hu => hfiled u (List.mem_cons_of_mem t hu)
    rw [List.filterMap_cons]
    split
    · exact ih
    · rename_i x hx
      refine List.nodup_cons.mpr ⟨fun hmem => ?_, ih⟩
      obtain ⟨y, hy, hkey⟩ := List.mem_map.mp hmem
      obtain ⟨u, hu, huy⟩ := List.mem_filterMap.mp hy
      have last {w : Touched} {z : Transaction} (h : (match w.lastState? with
          | some (.transaction x) => some x
          | _ => none) = some z) : w.lastState? = some (.transaction z) := by
        split at h
        · rename_i heq
          exact heq.trans (congrArg (some <| Entity.transaction ·) (Option.some.inj h))
        · cases h
      have htx := hfiled t List.mem_cons_self x (last hx)
      have huy := hfiled u (List.mem_cons_of_mem t hu) y (last huy)
      have hid : y.id = x.id := hkey
      exact hnot (List.mem_map.mpr ⟨u, hu, huy.trans (hid ▸ htx.symm)⟩)

/-- A transaction that is gone is shown as it was when the session began. -/
theorem context_of_none (h : Settled before s) {id : TransactionId} {t₀ : Transaction}
    (hbefore : before.transaction? id = some t₀) (hnone : s.ledger.transaction? id = none) :
    ∃ t, s.context.transaction? id = some t ∧ t.id = id ∧ t.facts = t₀.facts := by
  have hfacts : before.facts? (.transaction id) = some t₀.facts := by
    rw [Ledger.facts?, hbefore]
    rfl
  have hafter : s.ledger.facts? (.transaction id) = none := by
    rw [Ledger.facts?, hnone]
    rfl
  have htracks := h.tracks (.transaction id) fun h => by cases h
  have hkey := htracks.mem_keys not_false (by simp [hfacts, hafter])
  obtain ⟨t, ht⟩ := Journal.mem_keys_iff.mp hkey
  have hfaithful := htracks.faithful
  rw [sight, ht, hafter] at hfaithful
  obtain ⟨last, hlast⟩ := Option.isSome_iff_exists.mp (hfaithful.removed_eq.trans rfl)
  have hfields := hfaithful.fields_eq
  rw [Touched.lastFacts, hlast] at hfields
  obtain ⟨x, rfl, hx⟩ := Entity.eq_transaction (hfaithful.removed_key last hlast) hfields
  have hrestored : t.lastState? = some (.transaction (Touched.restored t.previous x)) := by
    rw [Touched.lastState?, hlast]
    rfl
  have htells := hfaithful.tells not_false t₀.facts hfacts
  rw [Touched.lastFacts, hlast] at htells
  refine ⟨Touched.restored t.previous x, ?_, hx, htells.facts_restored⟩
  rw [ReportContext.transaction?, context, hnone, Option.none_or, removedTransactions]
  refine (Register.get?_ofList h.nodup_removed id).1 _ (List.mem_filterMap.mpr ⟨t, ?_, ?_⟩) hx
  · exact List.mem_of_find?_eq_some ht
  · rw [hrestored]

theorem id_of_context {s : Session} {id : TransactionId} {t : Transaction}
    (ht : s.context.transaction? id = some t) : t.id = id := by
  rw [ReportContext.transaction?, context] at ht
  rcases Option.or_eq_some_iff.mp ht with ht | ⟨-, ht⟩
  · exact Ledger.id_of_transaction ht
  · exact Register.key_of_get? ht

end Settled

end Session

theorem Touched.restored_of_transaction {p : Previous} {t : Transaction}
    (h : ∀ v ∈ p.values, v.field = .transaction) : restored p t = t := by
  have haccount : p.account? = none :=
    Previous.findSome?_eq_none h fun v hv => by cases v <;> trivial
  have hsecurity : p.security? = none :=
    Previous.findSome?_eq_none h fun v hv => by cases v <;> trivial
  have hdate : p.date? = none := Previous.findSome?_eq_none h fun v hv => by cases v <;> trivial
  rw [restored, haccount, hsecurity, hdate]
  rfl

theorem ReportContext.ownerOf?_empty (c : ReportContext) (e : Entry) :
    c.ownerOf? e .empty = e.transaction.bind c.transaction? := by
  rw [ownerOf?]
  exact congrArg (Option.bind · _) (Option.or_none ..)

/-! ## Totals -/

namespace Counter

variable {σ P : Type} (C : Counter σ P)

/-- What an entry was worth before is what it is worth with what it had before. -/
theorem valueOf_restored {p : Previous} {e e₀ : Entry} (h : p.Tells e₀.facts e.facts) :
    C.valueOf (e.restored p) = C.valueOf e₀ := by
  simp only [valueOf, Entry.restored, h.amount, h.quantity]

theorem valueOf_restored_of_transaction {p : Previous} {e : Entry}
    (h : ∀ v ∈ p.values, v.field = .transaction) : C.valueOf (e.restored p) = C.valueOf e := by
  have hamount : p.amount? = none := Previous.findSome?_eq_none h fun v hv => by cases v <;> trivial
  have hquantity : p.quantity? = none :=
    Previous.findSome?_eq_none h fun v hv => by cases v <;> trivial
  simp only [valueOf, Entry.restored, hamount, hquantity, Option.getD_none]

/-- The value of an entry, if it is there and belongs to a transaction. -/
def valueAt (l : Ledger) (owner : TransactionId) (id : EntryId) : Int :=
  ((l.entry? id).map fun e => if e.transaction = some owner then C.valueOf e else 0).getD 0

/-- The value of all entries of a transaction. -/
def total (l : Ledger) (owner : TransactionId) : Int :=
  (l.entries.items.map fun e => if e.transaction = some owner then C.valueOf e else 0).sum

theorem total_eq_sum {l : Ledger} (owner : TransactionId) (ids : Finset EntryId)
    (h : ∀ id ∈ l.entries.keys, id ∈ ids) : C.total l owner = ∑ id ∈ ids, C.valueAt l owner id :=
  Register.sum_items_eq_sum_keys l.entries _ ids h

variable {C} {l : Ledger} {owner : TransactionId}

/-- A transaction that is not there has nothing. -/
theorem total_of_none (h : l.Sound) (hnone : l.transaction? owner = none) : C.total l owner = 0 := by
  refine List.sum_eq_zero fun v hv => ?_
  obtain ⟨e, he, rfl⟩ := List.mem_map.mp hv
  refine if_neg fun howner => ?_
  obtain ⟨owner', t, howner', ht, -⟩ := h.owned.owner _ e (Register.mem_items_iff.mp he)
  obtain rfl := Option.some.inj (howner.symm.trans howner')
  simp [hnone] at ht

/-- The details of a transaction have the values that are found at them. -/
theorem map_valueOf_details (h : l.Sound) {t : Transaction} (ht : l.transaction? owner = some t) :
    (l.details t).map C.valueOf = t.details.map (C.valueAt l owner) := by
  have hmem := h.owned.detail owner t ht
  rw [Ledger.details]
  generalize t.details = ids at hmem
  induction ids with
  | nil => rfl
  | cons id ids ih =>
    obtain ⟨e, he, howner⟩ := hmem id List.mem_cons_self
    rw [List.filterMap_cons_some he, List.map_cons, List.map_cons,
      ih fun i hi => hmem i (List.mem_cons_of_mem id hi), valueAt, he]
    simp [howner]

/-- The details of a transaction are worth what all entries that belong to it are worth. -/
theorem sum_details (h : l.Sound) {t : Transaction} (ht : l.transaction? owner = some t) :
    ((l.details t).map C.valueOf).sum = C.total l owner := by
  have hsub : t.details.toFinset ⊆ l.entries.keys.toFinset := by
    intro id hid
    obtain ⟨e, he, -⟩ := h.owned.detail owner t ht id (List.mem_toFinset.mp hid)
    exact List.mem_toFinset.mpr (Register.mem_keys_iff.mpr ⟨e, he⟩)
  rw [map_valueOf_details h ht, C.total_eq_sum owner _ fun id hid => List.mem_toFinset.mpr hid,
    ← List.sum_toFinset _ (h.owned.nodup owner t ht)]
  refine Finset.sum_subset hsub fun id _ hid => ?_
  rw [valueAt]
  cases he : l.entry? id with
  | none => rfl
  | some e =>
    refine if_neg fun howner => hid ?_
    obtain ⟨owner', t', howner', ht', hmem⟩ := h.owned.owner id e he
    obtain rfl := Option.some.inj (howner.symm.trans howner')
    obtain rfl := Option.some.inj (ht.symm.trans ht')
    exact List.mem_toFinset.mpr hmem

end Counter

/-! ## The entries -/

namespace Counting

variable {before : Ledger} {s : Session} {σ P : Type} [DecidableEq P] (C : Counting s.context σ P)

/-- A count that goes on by so much at each transaction, at the spot where the transaction is now. -/
structure Counted (b b' : σ) (change : TransactionId → Int) : Prop where
  tally_eq : ∀ x, C.tally b' x =
    C.tally b x + if C.spot? (s.context.transaction? x.1) = some x then (change x.1, 0) else 0
  booked : ∀ x, C.Booked b' x → C.Booked b x ∨ C.spot? (s.context.transaction? x.1) = some x

variable {C} {b b' : σ}

theorem counted_refl (b : σ) : C.Counted b b fun _ => 0 :=
  ⟨fun x => by simp, fun _ h => .inl h⟩

theorem Counted.congr {change change' : TransactionId → Int} (h : C.Counted b b' change)
    (hchange : ∀ owner, change' owner = change owner) : C.Counted b b' change' :=
  funext hchange ▸ h

theorem Counted.trans {b₁ b₂ : σ} {change change' : TransactionId → Int} (h : C.Counted b b₁ change)
    (h' : C.Counted b₁ b₂ change') : C.Counted b b₂ fun owner => change owner + change' owner where
  tally_eq x := by
    rw [h'.tally_eq, h.tally_eq]
    split
    · rw [add_assoc]
      rfl
    · simp
  booked x hx := by
    rcases h'.booked x hx with hx | hx
    · exact h.booked x hx
    · exact .inr hx

/-- What is posted for the owner of an entry is posted where the owner is now. -/
theorem counted_of_posts {owner : Option TransactionId} {v : Int} {change : TransactionId → Int}
    (h : C.Posts b b' (C.spot? (owner.bind s.context.transaction?)) (v, 0))
    (hchange : ∀ id, change id = if owner = some id then v else 0) : C.Counted b b' change := by
  have hspot : ∀ x, C.spot? (owner.bind s.context.transaction?) = some x →
      owner = some x.1 ∧ C.spot? (s.context.transaction? x.1) = some x := by
    intro x hx
    obtain ⟨t, ht, -⟩ := Option.bind_eq_some_iff.mp hx
    obtain ⟨id, rfl, hid⟩ := Option.bind_eq_some_iff.mp ht
    rw [ht, Counter.spot?_eq_some] at hx
    obtain rfl : id = x.1 := (Session.Settled.id_of_context hid).symm.trans hx.1
    exact ⟨rfl, by rw [hid, Counter.spot?_eq_some]; exact hx⟩
  refine ⟨fun x => ?_, fun x hx => (h.booked x hx).imp_right fun hx => (hspot x hx).2⟩
  rw [h.tally_eq]
  congr 1
  by_cases hx : C.spot? (owner.bind s.context.transaction?) = some x
  · obtain ⟨howner, hnow⟩ := hspot x hx
    rw [if_pos hx, if_pos hnow, hchange, if_pos howner]
  · rw [if_neg hx, hchange]
    split
    · rename_i hnow
      have howner : owner ≠ some x.1 := fun howner => hx (by rw [howner]; exact hnow)
      rw [if_neg howner]
      rfl
    · rfl

/-- By how much the value of an entry went up at a transaction. -/
def change (C : Counter σ P) (before after : Ledger) (id : EntryId) (owner : TransactionId) : Int :=
  C.valueAt after owner id - C.valueAt before owner id

/-- The notices about an entry count by how much it changed. -/
theorem entry_group (h : s.Settled before) {id : EntryId} (hkey : .entry id ∈ s.journal.keys)
    (hexact : Throughout C.notify C.Exact b (s.group (.entry id))) :
    ∃ b', (s.group (.entry id)).foldlM C.notify b = .ok b' ∧
      C.Counted b b' (change C.toCounter before s.ledger id) := by
  have hdue := h.due hkey fun h => by cases h
  generalize s.group (.entry id) = notices at hdue hexact
  cases hdue with
  | added hbefore hlive hafter =>
    obtain ⟨e, he, rfl⟩ := Option.map_eq_some_iff.mp hlive
    obtain ⟨b', hnotify, hposts⟩ := C.entry_added hexact.1
    refine ⟨b', foldlM_cons_ok hnotify rfl, ?_⟩
    have hnone : before.entry? id = none := Option.map_eq_none_iff.mp hbefore
    rw [ReportContext.ownerOf?_empty] at hposts
    refine counted_of_posts hposts fun owner => ?_
    rw [change, Counter.valueAt, Counter.valueAt, he, hnone]
    exact sub_zero _
  | @changed _ _ p hbefore hlive hafter htells =>
    obtain ⟨e, he, rfl⟩ := Option.map_eq_some_iff.mp hlive
    obtain ⟨e₀, he₀, rfl⟩ := Option.map_eq_some_iff.mp hbefore
    obtain ⟨b', hnotify, hposts⟩ := C.entry_changed hexact.1
    refine ⟨b', foldlM_cons_ok hnotify rfl, ?_⟩
    rw [ReportContext.ownerOf?_empty, C.valueOf_restored (htells not_false)] at hposts
    refine counted_of_posts hposts fun owner => ?_
    rw [change, Counter.valueAt, Counter.valueAt, he, he₀, Option.map_some, Option.map_some,
      Option.getD_some, Option.getD_some, h.owner id e₀ e he₀ he]
    split
    · rfl
    · exact sub_self _
  | @deleted _ _ p hbefore hafter hkey hfields htells hdetached =>
    obtain ⟨e, rfl, -⟩ := Entity.eq_entry hkey hfields
    obtain ⟨e₀, he₀, rfl⟩ := Option.map_eq_some_iff.mp hbefore
    obtain ⟨owner, -, howner, -⟩ := h.before_sound.owned.owner id e₀ he₀
    obtain ⟨b', hnotify, hposts⟩ := C.entry_deleted hexact.1
    refine ⟨b', foldlM_cons_ok hnotify rfl, ?_⟩
    have hnone : s.ledger.entry? id = none := Option.map_eq_none_iff.mp hafter
    rw [ReportContext.ownerOf?, hdetached e rfl, Option.none_or,
      (htells not_false).transaction howner (hdetached e rfl),
      C.valueOf_restored (htells not_false)] at hposts
    refine counted_of_posts hposts fun owner => ?_
    rw [change, Counter.valueAt, Counter.valueAt, hnone, he₀, Option.map_some, Option.getD_some,
      howner]
    split
    · exact zero_sub _
    · rfl
  | @passed t last hbefore hafter hkey hfields hprevious hdetached =>
    obtain ⟨e, rfl, -⟩ := Entity.eq_entry hkey hfields
    obtain ⟨b₁, hfirst, hadded⟩ := C.entry_added hexact.1
    obtain ⟨b₂, hlast, hdeleted⟩ := C.entry_deleted (hexact.of_cons hfirst).2.1
    refine ⟨b₂, foldlM_cons_ok hfirst (foldlM_cons_ok hlast rfl), ?_⟩
    have hbefore : before.entry? id = none := Option.map_eq_none_iff.mp hbefore
    have hafter : s.ledger.entry? id = none := Option.map_eq_none_iff.mp hafter
    -- what was added was taken off again, at the same spot
    rw [ReportContext.ownerOf?_empty] at hadded
    rw [ReportContext.ownerOf?, hdetached e rfl, Option.none_or,
      C.valueOf_restored_of_transaction hprevious] at hdeleted
    have hboth := (counted_of_posts hadded fun _ => rfl).trans
      (counted_of_posts hdeleted fun _ => rfl)
    refine hboth.congr fun owner => ?_
    rw [change, Counter.valueAt, Counter.valueAt, hbefore, hafter]
    dsimp only
    split
    · exact (add_neg_cancel _).symm
    · rfl

/-- The notices about some entries count by how much all of them changed. -/
theorem entry_groups (h : s.Settled before) {ids : List EntryId}
    (hkeys : ∀ id ∈ ids, .entry id ∈ s.journal.keys)
    (hexact : Throughout C.notify C.Exact b (ids.flatMap fun id => s.group (.entry id))) :
    ∃ b', (ids.flatMap fun id => s.group (.entry id)).foldlM C.notify b = .ok b' ∧
      C.Counted b b' fun owner => (ids.map fun id => change C.toCounter before s.ledger id owner).sum := by
  induction ids generalizing b with
  | nil => exact ⟨b, rfl, counted_refl b⟩
  | cons id ids ih =>
    rw [List.flatMap_cons] at hexact ⊢
    obtain ⟨hfirst, hrest⟩ := hexact.of_append
    obtain ⟨b₁, hgroup, hcounted⟩ := entry_group h (hkeys id List.mem_cons_self) hfirst
    obtain ⟨b₂, hgroups, hcounted'⟩ :=
      ih (fun i hi => hkeys i (List.mem_cons_of_mem id hi)) (hrest b₁ hgroup)
    exact ⟨b₂, foldlM_append_ok hgroup hgroups, hcounted.trans hcounted'⟩

omit [DecidableEq P] in
/-- Entries that are not touched do not change. -/
theorem change_of_not_mem (h : s.Settled before) {C : Counter σ P} {id : EntryId}
    (hkey : .entry id ∉ s.journal.keys) (owner : TransactionId) :
    change C before s.ledger id owner = 0 := by
  have hfacts := h.facts?_eq hkey fun h => by cases h
  rw [Ledger.facts?, Ledger.facts?] at hfacts
  have hvalue : C.valueAt s.ledger owner id = C.valueAt before owner id := by
    rw [Counter.valueAt, Counter.valueAt]
    cases hbefore : before.entry? id with
    | none =>
      rw [hbefore] at hfacts
      rw [Option.map_eq_none_iff.mp hfacts]
    | some e₀ =>
      rw [hbefore] at hfacts
      obtain ⟨e, he, hsame⟩ := Option.map_eq_some_iff.mp hfacts
      simp only [Entry.facts, List.cons.injEq, FieldValue.transaction.injEq,
        FieldValue.amount.injEq, FieldValue.quantity.injEq] at hsame
      simp only [he, Option.map_some, Counter.valueOf, hsame]
  rw [change, hvalue, sub_self]

omit [DecidableEq P] in
/-- The changes of the touched entries come to what the total went up. -/
theorem sum_change (h : s.Settled before) {C : Counter σ P} {ids : List EntryId} (hnodup : ids.Nodup)
    (hids : ∀ id, id ∈ ids ↔ .entry id ∈ s.journal.keys) (owner : TransactionId) :
    (ids.map fun id => change C before s.ledger id owner).sum =
      C.total s.ledger owner - C.total before owner := by
  set all := ids.toFinset ∪ s.ledger.entries.keys.toFinset ∪ before.entries.keys.toFinset with hall
  rw [C.total_eq_sum owner all (by simp +contextual [hall]),
    C.total_eq_sum owner all (by simp +contextual [hall]), ← Finset.sum_sub_distrib,
    ← List.sum_toFinset _ hnodup]
  refine Finset.sum_subset (by intro id hid; simp [hall, List.mem_toFinset.mp hid]) fun id _ hid => ?_
  exact change_of_not_mem h (mt (hids id).mpr (mt List.mem_toFinset.mpr hid)) owner

end Counting

/-! ## The transactions -/

namespace Counter

variable {σ P : Type} [DecidableEq P] (C : Counter σ P)

/-- What a transaction amounts to at a spot. -/
def standing (l : Ledger) (x : Spot P) : Int × Int :=
  if C.spot? (l.transaction? x.1) = some x then (C.total l x.1, 1) else 0

/-- What a transaction that stays but loses its place gains meanwhile. -/
def missed (before after : Ledger) (x : Spot P) : Int × Int :=
  if C.spot? (before.transaction? x.1) = some x ∧ (after.transaction? x.1).isSome ∧
      C.spot? (after.transaction? x.1) = none then
    (C.total after x.1 - C.total before x.1, 0)
  else 0

/-- What is counted of a session at a spot. -/
def outcome (before after : Ledger) (x : Spot P) : Int × Int :=
  C.standing after x - C.standing before x - C.missed before after x

end Counter

namespace Counting

section Astray

variable {c : ReportContext} {σ P : Type} [DecidableEq P] {C : Counting c σ P} {before after : Ledger}
  {x : Spot P} {t t₀ : Transaction}

/-- What goes astray at a spot, since a transaction that moved took along another value than its entries
have. -/
def astray (C : Counting c σ P) (before after : Ledger) (x : Spot P) : Int × Int :=
  match before.transaction? x.1, after.transaction? x.1 with
  | some t₀, some t =>
      if C.spot? (some t₀) = C.spot? (some t) then 0
      else if C.spot? (some t) = some x then (C.taken t - C.total after x.1, 0)
      else if C.spot? (some t₀) = some x then (C.total after x.1 - C.taken t, 0)
      else 0
  | _, _ => 0

theorem astray_of_new (h : before.transaction? x.1 = none) : C.astray before after x = 0 := by
  rw [astray, h]

theorem astray_of_gone (h : after.transaction? x.1 = none) : C.astray before after x = 0 := by
  rw [astray, h]
  cases before.transaction? x.1 <;> rfl

theorem astray_of_stayed (h₀ : before.transaction? x.1 = some t₀) (h : after.transaction? x.1 = some t)
    (hsame : C.spot? (some t₀) = C.spot? (some t)) : C.astray before after x = 0 := by
  simp only [astray, h₀, h, if_pos hsame]

theorem astray_of_moved (h₀ : before.transaction? x.1 = some t₀) (h : after.transaction? x.1 = some t)
    (hmoved : C.spot? (some t₀) ≠ C.spot? (some t)) : C.astray before after x =
      if C.spot? (some t) = some x then (C.taken t - C.total after x.1, 0)
      else if C.spot? (some t₀) = some x then (C.total after x.1 - C.taken t, 0)
      else 0 := by
  simp only [astray, h₀, h, if_neg hmoved]

/-- Nothing goes astray if a transaction takes along what its entries have. -/
theorem astray_eq_zero (h : ∀ t, after.transaction? x.1 = some t → C.taken t = C.total after x.1) :
    C.astray before after x = 0 := by
  rw [astray]
  split
  · rename_i t₀ t _ ht
    rw [h t ht, Int.sub_self]
    split
    · rfl
    · split
      · rfl
      · split <;> rfl
  · rfl

end Astray

variable {before : Ledger} {s : Session} {σ P : Type} [DecidableEq P] {C : Counting s.context σ P}
  {b b' : σ}

/-- The entries of a transaction are counted, and it is not: what it gained is booked where it is now,
and nothing is booked anywhere else. -/
structure Primed (C : Counting s.context σ P) (before : Ledger) (b : σ) (id : TransactionId) :
    Prop where
  tally_eq : ∀ x : Spot P, x.1 = id → C.tally b x =
    if C.spot? (s.context.transaction? x.1) = some x then
      (C.total s.ledger x.1 - C.total before x.1, 0)
    else 0
  booked : ∀ x : Spot P, x.1 = id → C.Booked b x → C.spot? (s.context.transaction? x.1) = some x

/-- A count in which one transaction is settled and all others stay as they are. -/
structure Settles (C : Counting s.context σ P) (before : Ledger) (b b' : σ) (id : TransactionId) :
    Prop where
  tally_eq : ∀ x : Spot P, x.1 = id →
    C.tally b' x = C.outcome before s.ledger x + C.astray before s.ledger x
  tally_other : ∀ x : Spot P, x.1 ≠ id → C.tally b' x = C.tally b x
  booked_other : ∀ x : Spot P, x.1 ≠ id → C.Booked b' x → C.Booked b x

/-- Posting at a spot of the transaction leaves all others as they are. -/
theorem settles_of_posts {t : Transaction} {id : TransactionId} {v : Int × Int} (hid : t.id = id)
    (hposts : C.Posts b b' (C.spot? (some t)) v)
    (hastray : ∀ x : Spot P, x.1 = id → C.astray before s.ledger x = 0)
    (h : ∀ x : Spot P, x.1 = id →
      C.tally b x + (if C.spot? (some t) = some x then v else 0) = C.outcome before s.ledger x) :
    C.Settles before b b' id := by
  have hother (x : Spot P) (hx : x.1 ≠ id) : C.spot? (some t) ≠ some x := fun hspot =>
    hx ((Counter.spot?_eq_some.mp hspot).1.symm.trans hid)
  refine ⟨fun x hx => ?_, fun x hx => ?_, fun x hx hb => ?_⟩
  · rw [hastray x hx, add_zero]
    exact (hposts.tally_eq x).trans (h x hx)
  · rw [hposts.tally_eq, if_neg (hother x hx), add_zero]
  · exact (hposts.booked x hb).resolve_right (hother x hx)

/-- Moving a transaction between spots of its own leaves all others as they are. -/
theorem settles_of_moves {t t₀ : Transaction} {id : TransactionId} {total : Int} (hid : t.id = id)
    (hid₀ : t₀.id = id) (hmoves : C.Moves b b' (C.spot? (some t₀)) (C.spot? (some t)) total)
    (h : ∀ x : Spot P, x.1 = id →
      (if C.spot? (some t) = some x then (total, 1)
        else if C.spot? (some t₀) = some x then
          (((C.spot? (some t)).map fun y => (C.tally b y).1).getD 0 - total, -1)
        else C.tally b x) = C.outcome before s.ledger x + C.astray before s.ledger x) :
    C.Settles before b b' id := by
  have hother (x : Spot P) (hx : x.1 ≠ id) :
      C.spot? (some t) ≠ some x ∧ C.spot? (some t₀) ≠ some x :=
    ⟨fun hspot => hx ((Counter.spot?_eq_some.mp hspot).1.symm.trans hid),
      fun hspot => hx ((Counter.spot?_eq_some.mp hspot).1.symm.trans hid₀)⟩
  refine ⟨fun x hx => (hmoves.tally_eq x).trans (h x hx), fun x hx => ?_, fun x hx hb => ?_⟩
  · rw [hmoves.tally_eq, if_neg (hother x hx).1, if_neg (hother x hx).2]
  · exact (hmoves.booked x hb).resolve_right (not_or.mpr (hother x hx))

/-- What a move books at the spots of a transaction is what is left to be counted there, and what goes
astray. -/
theorem moved_eq_outcome {id : TransactionId} {t t₀ : Transaction} (hprimed : C.Primed before b id)
    (ht₀ : before.transaction? id = some t₀) (ht : s.ledger.transaction? id = some t)
    (hmoved : C.spot? (some t₀) ≠ C.spot? (some t)) {x : Spot P} (hx : x.1 = id) :
    (if C.spot? (some t) = some x then (C.taken t, 1)
      else if C.spot? (some t₀) = some x then
        (((C.spot? (some t)).map fun y => (C.tally b y).1).getD 0 - C.taken t, -1)
      else C.tally b x) = C.outcome before s.ledger x + C.astray before s.ledger x := by
  subst hx
  have hnow := Session.Settled.context_of_some ht
  rw [astray_of_moved ht₀ ht hmoved, Counter.outcome, Counter.standing, Counter.standing,
    Counter.missed, ht₀, ht]
  by_cases hto : C.spot? (some t) = some x
  · rw [if_pos hto, if_pos hto, if_pos hto, if_neg (hto ▸ hmoved), if_neg (by simp [hto])]
    simp
  · rw [if_neg hto, if_neg hto, if_neg hto]
    by_cases hfrom : C.spot? (some t₀) = some x
    · rw [if_pos hfrom, if_pos hfrom, if_pos hfrom]
      cases hspot : C.spot? (some t) with
      | none =>
        -- without a place now, nothing was tracked: what the entries gained is missing
        simp [hfrom]
        omega
      | some y =>
        have hy : y.1 = x.1 :=
          (Counter.spot?_eq_some.mp hspot).1.symm.trans (Ledger.id_of_transaction ht)
        rw [if_neg (by simp), Option.map_some, Option.getD_some, hprimed.tally_eq y hy, hy, hnow,
          hspot, if_pos rfl]
        simp
        omega
    · rw [if_neg hfrom, if_neg hfrom, if_neg hfrom, if_neg (fun h => hfrom h.1), hprimed.tally_eq x rfl,
        hnow, if_neg hto]
      simp

section Cases

variable {id : TransactionId} {t t₀ : Transaction}

theorem settles_added (h : s.Settled before) (hprimed : C.Primed before b id)
    (hnone : before.transaction? id = none) (ht : s.ledger.transaction? id = some t)
    (hposts : C.Posts b b' (C.spot? (some t)) (0, 1)) : C.Settles before b b' id := by
  refine settles_of_posts (Ledger.id_of_transaction ht) hposts
    (fun x hx => astray_of_new (hx ▸ hnone)) ?_
  rintro x rfl
  rw [hprimed.tally_eq x rfl, Session.Settled.context_of_some ht, Counter.outcome, Counter.standing,
    Counter.standing, Counter.missed, ht, hnone, Counter.total_of_none h.before_sound hnone]
  split <;> simp [Counter.spot?]

theorem settles_stayed (hprimed : C.Primed before b id) (ht₀ : before.transaction? id = some t₀)
    (ht : s.ledger.transaction? id = some t) (hsame : C.spot? (some t₀) = C.spot? (some t))
    (hposts : C.Posts b b' none 0) : C.Settles before b b' id := by
  refine settles_of_posts (Ledger.id_of_transaction ht) (hposts.of_nowhere _)
    (fun x hx => astray_of_stayed (hx ▸ ht₀) (hx ▸ ht) hsame) ?_
  rintro x rfl
  rw [hprimed.tally_eq x rfl, Session.Settled.context_of_some ht, Counter.outcome, Counter.standing,
    Counter.standing, Counter.missed, ht₀, ht, hsame]
  split <;> simp [*]

theorem settles_deleted (h : s.Settled before) (hprimed : C.Primed before b id)
    (ht₀ : before.transaction? id = some t₀) (hnone : s.ledger.transaction? id = none)
    (hposts : C.Posts b b' (C.spot? (some t₀)) (0, -1)) : C.Settles before b b' id := by
  obtain ⟨t, ht, hid, hfacts⟩ := h.context_of_none ht₀ hnone
  have hid₀ : t₀.id = id := Ledger.id_of_transaction ht₀
  -- the context still has the transaction, as it was
  have hnow : C.spot? (some t) = C.spot? (some t₀) :=
    Counter.spot?_congr (hid.trans hid₀.symm) hfacts
  refine settles_of_posts hid₀ hposts (fun x hx => astray_of_gone (hx ▸ hnone)) ?_
  rintro x rfl
  rw [hprimed.tally_eq x rfl, ht, hnow, Counter.outcome, Counter.standing, Counter.standing,
    Counter.missed, ht₀, hnone, Counter.total_of_none h.sound hnone]
  split <;> simp [Counter.spot?]

theorem settles_passed (h : s.Settled before) (hprimed : C.Primed before b id)
    (hbefore : before.transaction? id = none) (hafter : s.ledger.transaction? id = none)
    (hid : t.id = id) (hposts : C.Posts b b' (C.spot? (some t)) 0) : C.Settles before b b' id := by
  refine settles_of_posts hid hposts (fun x hx => astray_of_new (hx ▸ hbefore)) ?_
  rintro x rfl
  rw [hprimed.tally_eq x rfl, Counter.outcome, Counter.standing, Counter.standing,
    Counter.missed, hbefore, hafter, Counter.total_of_none h.before_sound hbefore,
    Counter.total_of_none h.sound hafter]
  simp [Counter.spot?]

end Cases

/-- The notices about a transaction settle it. -/
theorem transaction_group (h : s.Settled before) {id : TransactionId}
    (hkey : .transaction id ∈ s.journal.keys) (hprimed : C.Primed before b id)
    (hexact : Throughout C.notify C.Exact b (s.group (.transaction id))) :
    ∃ b', (s.group (.transaction id)).foldlM C.notify b = .ok b' ∧ C.Settles before b b' id := by
  have hdue := h.due hkey fun h => by cases h
  generalize s.group (.transaction id) = notices at hdue hexact
  cases hdue with
  | added hbefore hlive hafter =>
    obtain ⟨t, ht, rfl⟩ := Option.map_eq_some_iff.mp hlive
    obtain ⟨b', hnotify, hposts⟩ := C.transaction_added hexact.1
    exact ⟨b', foldlM_cons_ok hnotify rfl,
      settles_added h hprimed (Option.map_eq_none_iff.mp hbefore) ht hposts⟩
  | @changed _ _ p hbefore hlive hafter htells =>
    obtain ⟨t, ht, rfl⟩ := Option.map_eq_some_iff.mp hlive
    obtain ⟨t₀, ht₀, rfl⟩ := Option.map_eq_some_iff.mp hbefore
    have hid : t.id = id := Ledger.id_of_transaction ht
    have hid₀ : t₀.id = id := Ledger.id_of_transaction ht₀
    have hold : C.spot? (some (Touched.restored p t)) = C.spot? (some t₀) :=
      Counter.spot?_congr (hid.trans hid₀.symm) (htells not_false).facts_restored
    by_cases hsame : C.spot? (some t₀) = C.spot? (some t)
    · obtain ⟨b', hnotify, hposts⟩ := C.transaction_stayed hexact.1 (hold.trans hsame)
      exact ⟨b', foldlM_cons_ok hnotify rfl, settles_stayed hprimed ht₀ ht hsame hposts⟩
    · have hfree (x : Spot P) (hx : C.spot? (some (Touched.restored p t)) = some x) :
          ¬ C.Booked b x := by
        intro hbooked
        have hspot := hprimed.booked x ((Counter.spot?_eq_some.mp hx).1.symm.trans hid) hbooked
        rw [(Counter.spot?_eq_some.mp hx).1.symm.trans hid, Session.Settled.context_of_some ht] at hspot
        exact hsame (hold.symm.trans (hx.trans hspot.symm))
      obtain ⟨b', hnotify, hmoves⟩ :=
        C.transaction_moved hexact.1 (fun heq => hsame (hold.symm.trans heq)) hfree
      refine ⟨b', foldlM_cons_ok hnotify rfl, settles_of_moves hid hid₀ (hold ▸ hmoves) ?_⟩
      exact fun x hx => moved_eq_outcome hprimed ht₀ ht hsame hx
  | @deleted _ _ p hbefore hafter hkey hfields htells hdetached =>
    obtain ⟨last, rfl, hid⟩ := Entity.eq_transaction hkey hfields
    obtain ⟨t₀, ht₀, rfl⟩ := Option.map_eq_some_iff.mp hbefore
    have hlast : C.spot? (some (Touched.restored p last)) = C.spot? (some t₀) :=
      Counter.spot?_congr (hid.trans (Ledger.id_of_transaction ht₀).symm)
        (htells not_false).facts_restored
    obtain ⟨b', hnotify, hposts⟩ := C.transaction_deleted hexact.1
    exact ⟨b', foldlM_cons_ok hnotify rfl,
      settles_deleted h hprimed ht₀ (Option.map_eq_none_iff.mp hafter) (hlast ▸ hposts)⟩
  | @passed t last hbefore hafter hkey hfields hprevious hdetached =>
    obtain ⟨last, rfl, hid⟩ := Entity.eq_transaction hkey hfields
    obtain ⟨b₁, hfirst, hadded⟩ := C.transaction_added hexact.1
    obtain ⟨b₂, hlast, hdeleted⟩ := C.transaction_deleted (hexact.of_cons hfirst).2.1
    rw [Touched.restored_of_transaction hprevious] at hdeleted
    exact ⟨b₂, foldlM_cons_ok hfirst (foldlM_cons_ok hlast rfl), settles_passed h hprimed
      (Option.map_eq_none_iff.mp hbefore) (Option.map_eq_none_iff.mp hafter) hid (hadded.trans hdeleted)⟩

/-- The notices about some transactions settle all of them. -/
theorem transaction_groups (h : s.Settled before) {ids : List TransactionId} (hnodup : ids.Nodup)
    (hkeys : ∀ id ∈ ids, .transaction id ∈ s.journal.keys) (hprimed : ∀ id ∈ ids, C.Primed before b id)
    (hexact : Throughout C.notify C.Exact b (ids.flatMap fun id => s.group (.transaction id))) :
    ∃ b', (ids.flatMap fun id => s.group (.transaction id)).foldlM C.notify b = .ok b' ∧
      ∀ x : Spot P, C.tally b' x =
        if x.1 ∈ ids then C.outcome before s.ledger x + C.astray before s.ledger x
        else C.tally b x := by
  induction ids generalizing b with
  | nil => exact ⟨b, rfl, fun x => rfl⟩
  | cons id ids ih =>
    rw [List.flatMap_cons] at hexact ⊢
    obtain ⟨hnot, hnodup⟩ := List.nodup_cons.mp hnodup
    obtain ⟨hfirst, hrest⟩ := hexact.of_append
    obtain ⟨b₁, hgroup, hsettles⟩ := transaction_group h (hkeys id List.mem_cons_self)
      (hprimed id List.mem_cons_self) hfirst
    have hprimed₁ (i : TransactionId) (hi : i ∈ ids) : C.Primed before b₁ i := by
      have hne : i ≠ id := fun heq => hnot (heq ▸ hi)
      have hi := hprimed i (List.mem_cons_of_mem id hi)
      exact ⟨fun x hx => (hsettles.tally_other x (hx ▸ hne)).trans (hi.tally_eq x hx),
        fun x hx hb => hi.booked x hx (hsettles.booked_other x (hx ▸ hne) hb)⟩
    obtain ⟨b₂, hgroups, htally⟩ := ih hnodup
      (fun i hi => hkeys i (List.mem_cons_of_mem id hi)) hprimed₁ (hrest b₁ hgroup)
    refine ⟨b₂, foldlM_append_ok hgroup hgroups, fun x => ?_⟩
    rw [htally]
    by_cases hx : x.1 = id
    · rw [if_neg (hx ▸ hnot), if_pos (hx ▸ List.mem_cons_self), hsettles.tally_eq x hx]
    · simp only [List.mem_cons, hx, false_or, hsettles.tally_other x hx]

/-- Notices about anything else change nothing. -/
theorem ignored_groups (h : s.Settled before) (keys : List EntityKey)
    (hkeys : ∀ key ∈ keys, key.kind ≠ .entry ∧ key.kind ≠ .transaction) :
    (keys.flatMap s.group).foldlM C.notify b = .ok b := by
  have hnotices : ∀ n ∈ keys.flatMap s.group, C.notify b n = .ok b := by
    intro n hn
    obtain ⟨key, hkey, hn⟩ := List.mem_flatMap.mp hn
    have hn := Session.key_of_mem_group h.filed hn
    exact C.ignored (hn ▸ (hkeys key hkey).1) (hn ▸ (hkeys key hkey).2)
  generalize keys.flatMap s.group = notices at hnotices
  induction notices with
  | nil => rfl
  | cons n notices ih =>
    exact foldlM_cons_ok (hnotices n List.mem_cons_self)
      (ih fun m hm => hnotices m (List.mem_cons_of_mem n hm))

/-! ## All notices -/

/-- The entries among keys. -/
def entryIds (keys : List EntityKey) : List EntryId :=
  keys.filterMap fun | .entry id => some id | _ => none

/-- The transactions among keys. -/
def transactionIds (keys : List EntityKey) : List TransactionId :=
  keys.filterMap fun | .transaction id => some id | _ => none

theorem map_entryIds (keys : List EntityKey) :
    (entryIds keys).map .entry = keys.filter fun key => key.kind = .entry := by
  induction keys with
  | nil => rfl
  | cons key keys ih => cases key <;> simp_all [entryIds, EntityKey.kind]

theorem map_transactionIds (keys : List EntityKey) :
    (transactionIds keys).map .transaction = keys.filter fun key => key.kind = .transaction := by
  induction keys with
  | nil => rfl
  | cons key keys ih => cases key <;> simp_all [transactionIds, EntityKey.kind]

theorem mem_entryIds {keys : List EntityKey} {id : EntryId} :
    id ∈ entryIds keys ↔ .entry id ∈ keys := by
  rw [← List.mem_map_of_injective (f := EntityKey.entry) fun _ _ h => EntityKey.entry.inj h,
    map_entryIds]
  simp [EntityKey.kind]

theorem mem_transactionIds {keys : List EntityKey} {id : TransactionId} :
    id ∈ transactionIds keys ↔ .transaction id ∈ keys := by
  rw [← List.mem_map_of_injective (f := EntityKey.transaction) fun _ _ h => EntityKey.transaction.inj h,
    map_transactionIds]
  simp [EntityKey.kind]

/-- A transaction that is not touched has gained what its entries gained, and stays where it is. -/
theorem outcome_of_not_mem (h : s.Settled before) {x : Spot P}
    (hkey : .transaction x.1 ∉ s.journal.keys) :
    (if C.spot? (s.context.transaction? x.1) = some x then
      (C.total s.ledger x.1 - C.total before x.1, (0 : Int)) else 0) =
      C.outcome before s.ledger x + C.astray before s.ledger x := by
  have hfacts := h.facts?_eq hkey fun h => by cases h
  rw [Ledger.facts?, Ledger.facts?] at hfacts
  rw [Counter.outcome, Counter.standing, Counter.standing, Counter.missed]
  cases hbefore : before.transaction? x.1 with
  | none =>
    rw [hbefore] at hfacts
    have hafter := Option.map_eq_none_iff.mp hfacts
    rw [astray_of_new hbefore, hafter, Counter.total_of_none h.before_sound hbefore, Counter.total_of_none h.sound hafter]
    simp [Counter.spot?]
  | some t₀ =>
    rw [hbefore] at hfacts
    obtain ⟨t, ht, hsame⟩ := Option.map_eq_some_iff.mp hfacts
    have hid : t.id = t₀.id := (Ledger.id_of_transaction ht).trans (Ledger.id_of_transaction hbefore).symm
    have hspot := (Counter.spot?_congr (C := C.toCounter) hid hsame).symm
    rw [astray_of_stayed hbefore ht hspot, Session.Settled.context_of_some ht, ht, hspot]
    split <;> simp [*]

/-- Counting all notices of a session from nothing gives what each transaction amounts to at each spot
in the end, less what it amounted to there in the beginning, less what is missed, and what goes astray. -/
theorem tally_notices (h : s.Settled before) (hzero : ∀ x, C.tally b x = 0)
    (hnone : ∀ x, ¬ C.Booked b x) (hexact : Throughout C.notify C.Exact b s.notices) :
    ∃ b', s.notices.foldlM C.notify b = .ok b' ∧
      ∀ x, C.tally b' x = C.outcome before s.ledger x + C.astray before s.ledger x := by
  have hnotices := Session.notices_eq_flatMap_group h.nodup
  rw [Session.reportedKeys, ← map_entryIds, ← map_transactionIds, List.flatMap_append,
    List.flatMap_append, List.flatMap_append, List.flatMap_map, List.flatMap_map] at hnotices
  rw [hnotices] at hexact ⊢
  obtain ⟨hexact, -⟩ := hexact.of_append
  obtain ⟨hexact, htransactions⟩ := hexact.of_append
  obtain ⟨hentries, -⟩ := hexact.of_append
  have hnodup : (entryIds s.journal.keys).Nodup := by
    refine List.Nodup.of_map EntityKey.entry ?_
    rw [map_entryIds]
    exact h.nodup.filter _
  have hnodup' : (transactionIds s.journal.keys).Nodup := by
    refine List.Nodup.of_map EntityKey.transaction ?_
    rw [map_transactionIds]
    exact h.nodup.filter _
  -- first the entries: all that they gained is booked at the spots of their transactions
  obtain ⟨b₁, hb₁, hcounted⟩ := entry_groups h (fun id hid => mem_entryIds.mp hid) hentries
  have hgained (x : Spot P) : C.tally b₁ x =
      if C.spot? (s.context.transaction? x.1) = some x then
        (C.total s.ledger x.1 - C.total before x.1, 0) else 0 := by
    rw [hcounted.tally_eq, hzero, zero_add, sum_change h hnodup (fun id => mem_entryIds)]
  have hlots := ignored_groups (b := b₁) (C := C) h
    (s.journal.keys.filter fun key => key.kind = .lot) fun key hkey => by
      have hkind : key.kind = .lot := by simpa using List.of_mem_filter hkey
      simp [hkind]
  have hb₁ := foldlM_append_ok hb₁ hlots
  -- then the transactions, each of which is settled once
  obtain ⟨b₂, hb₂, htally⟩ := transaction_groups h hnodup' (fun id hid => mem_transactionIds.mp hid)
    (fun id _ => ⟨fun x _ => hgained x, fun x _ hx => (hcounted.booked x hx).resolve_left (hnone x)⟩)
    (htransactions b₁ hb₁)
  refine ⟨b₂, foldlM_append_ok (foldlM_append_ok hb₁ hb₂) ?_, fun x => ?_⟩
  · refine ignored_groups h _ fun key hkey => ?_
    have hkind := List.of_mem_filter hkey
    simp only [decide_eq_true_eq] at hkind
    exact ⟨hkind.1, hkind.2.2⟩
  · rw [htally]
    split
    · rfl
    · rename_i hx
      rw [hgained]
      exact outcome_of_not_mem h (mt mem_transactionIds.mpr hx)

end Counting

/-! ## Places -/

namespace Counter

variable {σ P : Type} [DecidableEq P] (C : Counter σ P)

/-- What all transactions at a place amount to, and how many there are. -/
def position (l : Ledger) (p : P) : Int × Int :=
  (l.transactions.items.map fun t =>
    if C.place? t.account t.security = some p then (C.total l t.id, 1) else 0).sum

/-- What is missed at a place. -/
def missedAt (before after : Ledger) (p : P) : Int × Int :=
  (before.transactions.items.map fun t => C.missed before after (t.id, p)).sum

variable {C} {before after : Ledger}

theorem sum_standing {l : Ledger} {ids : Finset TransactionId}
    (h : ∀ id ∈ l.transactions.keys, id ∈ ids) (p : P) :
    ∑ id ∈ ids, C.standing l (id, p) = C.position l p := by
  rw [position, Register.sum_items_eq_sum_keys l.transactions _ _ h]
  refine Finset.sum_congr rfl fun id _ => ?_
  rw [standing]
  change (if C.spot? (l.transactions.get? id) = some (id, p) then _ else _) = _
  cases ht : l.transactions.get? id with
  | none => simp [spot?]
  | some t =>
    have hid : t.id = id := Ledger.id_of_transaction ht
    simp only [spot?_eq_some, hid, true_and, Option.map_some, Option.getD_some]

theorem sum_missed {ids : Finset TransactionId} (h : ∀ id ∈ before.transactions.keys, id ∈ ids)
    (p : P) : ∑ id ∈ ids, C.missed before after (id, p) = C.missedAt before after p := by
  rw [missedAt, Register.sum_items_eq_sum_keys before.transactions _ _ h]
  refine Finset.sum_congr rfl fun id _ => ?_
  cases ht : before.transactions.get? id with
  | none =>
    have hnone : before.transaction? id = none := ht
    rw [missed, hnone]
    simp [spot?]
  | some t =>
    have hid : t.id = id := Ledger.id_of_transaction ht
    rw [Option.map_some, Option.getD_some, hid]

/-- What is counted of a session at all spots of a place. -/
theorem sum_outcome {ids : Finset TransactionId} (hbefore : ∀ id ∈ before.transactions.keys, id ∈ ids)
    (hafter : ∀ id ∈ after.transactions.keys, id ∈ ids) (p : P) :
    ∑ id ∈ ids, C.outcome before after (id, p) =
      C.position after p - C.position before p - C.missedAt before after p := by
  simp only [outcome]
  rw [Finset.sum_sub_distrib, Finset.sum_sub_distrib, sum_standing hafter, sum_standing hbefore,
    sum_missed hbefore]

/-- Items that are filed by spots, summed over one place. -/
theorem sum_items_at {α κ : Type} [Keyed α κ] [Ranked κ] [DecidableEq κ] (r : Register α)
    (spot : κ ≃ Spot P) (f : α → Int × Int) {ids : Finset TransactionId}
    (h : ∀ k ∈ r.keys, (spot k).1 ∈ ids) (p : P) :
    (r.items.map fun x => if (spot (key x)).2 = p then f x else 0).sum =
      ∑ id ∈ ids, ((r.get? (spot.symm (id, p))).map f).getD 0 := by
  set places : Finset P := insert p (r.keys.map fun k => (spot k).2).toFinset with hplaces
  have hcover : ∀ k ∈ r.keys, k ∈ (ids ×ˢ places).map spot.symm.toEmbedding := by
    intro k hk
    refine Finset.mem_map.mpr ⟨spot k, Finset.mem_product.mpr ⟨h k hk, ?_⟩, spot.symm_apply_apply k⟩
    exact Finset.mem_insert_of_mem (List.mem_toFinset.mpr (List.mem_map.mpr ⟨k, hk, rfl⟩))
  rw [Register.sum_items_eq_sum_keys r _ _ hcover, Finset.sum_map, Finset.sum_product]
  refine Finset.sum_congr rfl fun id _ => ?_
  rw [Finset.sum_eq_single_of_mem p (Finset.mem_insert_self ..)]
  · cases hx : r.get? (spot.symm (id, p)) with
    | none => simp
    | some x =>
      have hkey : spot (key x) = (id, p) := by rw [Register.key_of_get? hx, Equiv.apply_symm_apply]
      simp [hkey]
  · intro q _ hq
    cases hx : r.get? (spot.symm (id, q)) with
    | none => simp
    | some x =>
      have hkey : spot (key x) = (id, q) := by rw [Register.key_of_get? hx, Equiv.apply_symm_apply]
      simp [hkey, hq]

end Counter

/-- Items that hold what is counted of a session, summed over one place. -/
theorem Counter.sum_items_of_outcome {σ P α κ : Type} [DecidableEq P] {C : Counter σ P}
    {before after : Ledger} [Keyed α κ] [Ranked κ] [DecidableEq κ] (r : Register α)
    (spot : κ ≃ Spot P) {f : α → Int × Int}
    (h : ∀ x, ((r.get? (spot.symm x)).map f).getD 0 = C.outcome before after x) (p : P) :
    (r.items.map fun x => if (spot (key x)).2 = p then f x else 0).sum =
      C.position after p - C.position before p - C.missedAt before after p := by
  set ids : Finset TransactionId := (r.keys.map fun k => (spot k).1).toFinset ∪
    before.transactions.keys.toFinset ∪ after.transactions.keys.toFinset with hids
  have hkeys : ∀ k ∈ r.keys, (spot k).1 ∈ ids := by
    intro k hk
    simp only [hids, Finset.mem_union, List.mem_toFinset]
    exact .inl (.inl (List.mem_map.mpr ⟨k, hk, rfl⟩))
  have hbefore : ∀ id ∈ before.transactions.keys, id ∈ ids := by simp +contextual [hids]
  have hafter : ∀ id ∈ after.transactions.keys, id ∈ ids := by simp +contextual [hids]
  rw [sum_items_at r spot f hkeys, ← sum_outcome hbefore hafter]
  exact Finset.sum_congr rfl fun id _ => h (id, p)

/-- A fold that adds up items place by place. -/
theorem foldlM_collect {ε ρ α P : Type} [DecidableEq P] {step : ρ → α → Except ε ρ}
    {exact : ρ → α → Prop} (view : ρ → P → Int × Int) (place : α → P) (f : α → Int × Int)
    (hstep : ∀ r x, exact r x → ∃ r', step r x = .ok r' ∧
      ∀ p, view r' p = view r p + if place x = p then f x else 0)
    {xs : List α} {r : ρ} (hexact : Throughout step exact r xs) :
    ∃ r', xs.foldlM step r = .ok r' ∧
      ∀ p, view r' p = view r p + (xs.map fun x => if place x = p then f x else 0).sum := by
  induction xs generalizing r with
  | nil => exact ⟨r, rfl, fun p => by simp⟩
  | cons x xs ih =>
    obtain ⟨r₁, hr₁, hview₁⟩ := hstep r x hexact.1
    obtain ⟨r₂, hr₂, hview₂⟩ := ih (hexact.of_cons hr₁).2
    refine ⟨r₂, foldlM_cons_ok hr₁ hr₂, fun p => ?_⟩
    rw [hview₂, hview₁, List.map_cons, List.sum_cons, add_assoc]

end Lotbook
