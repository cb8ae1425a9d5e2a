/-
# Lotbook.Proofs.Journals -- what the journal has under each key after it was written

Every note in a journal revises the record of one key and leaves all others, so the record under a
key after many notes is read off the notes about that key. Keys keep the order in which they were
touched first; new ones come behind (`Journal.Extends`).

Each kind of note gets two lemmas: what it leaves under every key (`record?_…`, an equation with an
`if` for the key that it is about), and that it only writes on (`Extends.…`).
-/
import Lotbook.Proofs.Changes
import Lotbook.Proofs.Turns
import Lotbook.Session.Basic

namespace Lotbook

namespace Journal

/-- The record of an entity, if it was touched. -/
def record? (j : Journal) (key : EntityKey) : Option Touched := j.records.find? fun t => t.key = key

/-- The keys of a journal are those that have a record. -/
theorem mem_keys_iff {j : Journal} {key : EntityKey} :
    key ∈ j.keys ↔ ∃ t, j.record? key = some t := by
  constructor
  · intro h
    obtain ⟨t, ht, hkey⟩ := List.mem_map.mp h
    exact Option.isSome_iff_exists.mp (List.find?_isSome.mpr ⟨t, ht, by simpa using hkey⟩)
  · rintro ⟨t, ht⟩
    exact List.mem_map.mpr ⟨t, List.mem_of_find?_eq_some ht, by simpa using List.find?_some ht⟩

theorem key_of_record {j : Journal} {key : EntityKey} {t : Touched} (h : j.record? key = some t) :
    t.key = key := by
  simpa using List.find?_some h

/-- With one record for each key, a record is the one found under its key. -/
theorem record?_of_mem {j : Journal} (h : j.keys.Nodup) {t : Touched} (ht : t ∈ j.records) :
    j.record? t.key = some t := by
  obtain ⟨u, hu⟩ := mem_keys_iff.mp (List.mem_map.mpr ⟨t, ht, rfl⟩)
  have : u = t := List.inj_on_of_nodup_map h (List.mem_of_find?_eq_some hu) ht (key_of_record hu)
  exact this ▸ hu

/-! ## One note -/

/--
Revising the record of one key leaves all others. A key without a record gets one at the end, revised
from a fresh one, which is why the equation reads the record with a default.
-/
theorem record?_revised {f : Touched → Touched} (hf : ∀ t, (f t).key = t.key) (j : Journal)
    (key k : EntityKey) :
    record? ⟨revised f key j.records⟩ k =
      if k = key then some (f ((j.record? key).getD (.start key))) else j.record? k := by
  obtain ⟨records⟩ := j
  simp only [record?]
  induction records with
  | nil => by_cases h : k = key <;> simp [revised, hf, Touched.start, h, eq_comm]
  | cons t rest ih =>
    rw [revised]
    -- The first record either is the one to revise, or stays and the note goes on behind it.
    by_cases ht : t.key = key
    · by_cases h : k = key <;> simp [ht, hf, h, eq_comm]
    · by_cases h : k = key
      · simp only [if_neg ht, h, if_true] at ih ⊢
        simp [ht, ih]
      · by_cases htk : t.key = k
        · simp [htk, h]
        · simp only [if_neg ht, h, if_false] at ih ⊢
          simp [htk, ih]

theorem record?_add (j : Journal) (key k : EntityKey) :
    (j.add key).record? k =
      if k = key then some ((j.record? key).getD (.start key)).add else j.record? k :=
  record?_revised Touched.key_add j key k

theorem record?_change (j : Journal) (key : EntityKey) (value : FieldValue) (k : EntityKey) :
    (j.change key value).record? k =
      if k = key then some (((j.record? key).getD (.start key)).change value) else j.record? k :=
  record?_revised (Touched.key_change · value) j key k

theorem record?_remove (j : Journal) (last : Entity) (k : EntityKey) :
    (j.remove last).record? k =
      if k = last.key then some (((j.record? last.key).getD (.start last.key)).remove last)
      else j.record? k :=
  record?_revised (Touched.key_remove · last) j last.key k

/-- The owner that an entry had is kept even if the entry came in during the session: it is the one
value that the entry itself does not show any more when it is gone. -/
theorem record?_removeEntry (j : Journal) (last : Entry) (owner : Option TransactionId)
    (k : EntityKey) :
    (j.removeEntry last owner).record? k =
      if k = .entry last.id then
        some ((((j.record? (.entry last.id)).getD (.start (.entry last.id))).keep
          (.transaction owner)).remove (.entry last))
      else j.record? k :=
  record?_revised (f := fun t => (t.keep (.transaction owner)).remove (.entry last)) (fun _ => rfl) j
    (.entry last.id) k

/-! ## Many notes -/

section Folds

variable {α : Type} {f : Journal → α → Journal} (keyOf : α → EntityKey)
  (note : α → Option Touched → Option Touched)

/--
Notes about different keys do not disturb each other: after all of them, each key has what its own
note made of the record from before. `hf` is the shape that the equations above have.
-/
theorem record?_foldl
    (hf : ∀ j a k, (f j a).record? k = if k = keyOf a then note a (j.record? k) else j.record? k)
    {xs : List α} (hnodup : (xs.map keyOf).Nodup) (j : Journal) :
    (∀ k, k ∉ xs.map keyOf → (xs.foldl f j).record? k = j.record? k) ∧
      ∀ a ∈ xs, (xs.foldl f j).record? (keyOf a) = note a (j.record? (keyOf a)) := by
  induction xs generalizing j with
  | nil => exact ⟨fun _ _ => rfl, fun _ ha => (List.not_mem_nil ha).elim⟩
  | cons x xs ih =>
    obtain ⟨hx, hxs⟩ := List.nodup_cons.mp hnodup
    obtain ⟨hother, hmem⟩ := ih hxs (f j x)
    refine ⟨fun k hk => ?_, fun a ha => ?_⟩
    · obtain ⟨hkx, hk⟩ := not_or.mp (mt List.mem_cons.mpr hk)
      rw [List.foldl_cons, hother k hk, hf, if_neg hkx]
    · rw [List.foldl_cons]
      rcases List.mem_cons.mp ha with rfl | ha
      · rw [hother _ hx, hf, if_pos rfl]
      · have hne : keyOf a ≠ keyOf x := fun h => hx (h ▸ List.mem_map.mpr ⟨a, ha, rfl⟩)
        rw [hmem a ha, hf, if_neg hne]

end Folds

theorem record?_addAll {keys : List EntityKey} (h : keys.Nodup) (j : Journal) (k : EntityKey) :
    (j.addAll keys).record? k =
      if k ∈ keys then some ((j.record? k).getD (.start k)).add else j.record? k := by
  -- Each key is its own note, so the lemma is used with the identity for the key of a note.
  have hfold := record?_foldl (f := add) (fun key => key)
    (fun key r => some (r.getD (.start key)).add)
    (fun j a k => by
      rw [record?_add]
      split
      · rename_i hk
        rw [hk]
      · rfl) (show (keys.map fun key => key).Nodup by rwa [List.map_id']) j
  rw [List.map_id'] at hfold
  split
  · exact hfold.2 k ‹_›
  · exact hfold.1 k ‹_›

/-- Notes the shares as of the purchase date that a lot had, if it has others now. -/
def noteLot (after : Ledger) (j : Journal) (lot : Lot) : Journal :=
  match after.lot? lot.key with
  | some now =>
      if now.purchaseShares = lot.purchaseShares then j
      else j.change (.lot lot.key) (.purchaseShares lot.purchaseShares)
  | none => j

/-- The record of a lot after its shares were noted. -/
def lotNoted (after : Ledger) (lot : Lot) (r : Option Touched) : Option Touched :=
  match after.lot? lot.key with
  | some now =>
      if now.purchaseShares = lot.purchaseShares then r
      else some ((r.getD (.start (.lot lot.key))).change (.purchaseShares lot.purchaseShares))
  | none => r

theorem record?_noteLot (after : Ledger) (j : Journal) (lot : Lot) (k : EntityKey) :
    (noteLot after j lot).record? k =
      if k = .lot lot.key then lotNoted after lot (j.record? k) else j.record? k := by
  rw [noteLot, lotNoted]
  split
  · split
    · exact (ite_self _).symm
    · rw [record?_change]
      split
      · rename_i hk
        rw [hk]
      · rfl
  · exact (ite_self _).symm

/--
Noting lots goes through the lots that were there before, which have different keys. Lots that are new
since then are none of its business, and other entities are not either.
-/
theorem record?_noteLots (j : Journal) (before after : Ledger) :
    (∀ key lot, before.lot? key = some lot →
        (j.noteLots before after).record? (.lot key) = lotNoted after lot (j.record? (.lot key))) ∧
      ∀ k, (∀ key lot, before.lot? key = some lot → k ≠ .lot key) →
        (j.noteLots before after).record? k = j.record? k := by
  have hnodup : (before.lots.items.map fun lot => EntityKey.lot lot.key).Nodup := by
    have := Register.nodup_keys before.lots
    rw [Register.keys] at this
    rw [show (fun lot : Lot => EntityKey.lot lot.key) = EntityKey.lot ∘ Keyed.key from rfl,
      ← List.map_map]
    exact this.map fun a b h => EntityKey.lot.inj h
  obtain ⟨hother, hmem⟩ := record?_foldl _ _ (record?_noteLot after) hnodup j
  refine ⟨fun key lot hlot => ?_, fun k hk => hother k fun hmem => ?_⟩
  · obtain rfl : lot.key = key := Ledger.key_of_lot hlot
    exact hmem lot (Register.mem_items_iff.mpr hlot)
  · obtain ⟨lot, hlot, rfl⟩ := List.mem_map.mp hmem
    exact hk lot.key lot (Register.mem_items_iff.mp hlot) rfl

/-- Changes of different transactions are noted one by one. -/
theorem record?_noteChanges {α : Type} {changes : Ledger.Changes α} (value : α → FieldValue)
    (h : (changes.map Prod.fst).Nodup) (j : Journal) :
    (∀ k, (∀ c ∈ changes, k ≠ .transaction c.1) →
        (Session.noteChanges j changes value).record? k = j.record? k) ∧
      ∀ c ∈ changes, (Session.noteChanges j changes value).record? (.transaction c.1) =
        some (((j.record? (.transaction c.1)).getD (.start (.transaction c.1))).change (value c.2)) := by
  have hnodup : (changes.map fun c => EntityKey.transaction c.1).Nodup := by
    rw [show (fun c : TransactionId × α => EntityKey.transaction c.1) = EntityKey.transaction ∘ Prod.fst
      from rfl, ← List.map_map]
    exact h.map fun a b h => EntityKey.transaction.inj h
  have hfold := record?_foldl (f := fun j c => j.change (.transaction c.1) (value c.2)) _
    (fun c r => some ((r.getD (.start (.transaction c.1))).change (value c.2)))
    (fun j c k => by
      rw [record?_change]
      split
      · rename_i hk
        rw [hk]
      · rfl) hnodup j
  refine ⟨fun k hk => hfold.1 k fun hmem => ?_, hfold.2⟩
  obtain ⟨c, hc, rfl⟩ := List.mem_map.mp hmem
  exact hk c hc rfl

/-! ## Lots that were matched -/

/-- A lot that grew, with both of its share counts before. -/
def sharesNoted (lot : Lot) (t : Touched) : Touched :=
  (t.change (.purchaseShares lot.purchaseShares)).change (.adjustedShares lot.adjustedShares)

/-- The same share counts are noted only once: the first value noted of a field is the one that stays,
and of an entity that came in during the session nothing is noted at all. -/
theorem sharesNoted_idem (lot : Lot) (t : Touched) :
    sharesNoted lot (sharesNoted lot t) = sharesNoted lot t := by
  cases hadded : t.added with
  | true => simp [sharesNoted, Touched.change, hadded]
  | false =>
    have hfold : ∀ u : Touched, u.added = false → sharesNoted lot u =
        { u with previous := u.previous.recordAll lot.facts } := fun u hu =>
      Touched.foldl_change_of_not_added hu lot.facts
    have hknown : ∀ v ∈ lot.facts, v.field ∈ (t.previous.recordAll lot.facts).fields :=
      fun v hv => Previous.field_mem_recordAll hv
    rw [hfold t hadded]
    exact (hfold { t with previous := t.previous.recordAll lot.facts } hadded).trans
      (congrArg (fun p => { t with previous := p }) (Previous.recordAll_of_known hknown))

/-- Notes a lot that grew, if it was there before. -/
def noteGrown (before : Ledger) (j : Journal) (key : LotKey) : Journal :=
  match before.lot? key with
  | some lot =>
      (j.change (.lot key) (.purchaseShares lot.purchaseShares)).change (.lot key)
        (.adjustedShares lot.adjustedShares)
  | none => j

theorem record?_noteGrown (before : Ledger) (j : Journal) (key : LotKey) (k : EntityKey) :
    (noteGrown before j key).record? k =
      match before.lot? key with
      | some lot =>
          if k = .lot key then some (sharesNoted lot ((j.record? k).getD (.start k))) else j.record? k
      | none => j.record? k := by
  rw [noteGrown]
  cases before.lot? key with
  | none => rfl
  | some lot =>
    dsimp only
    rw [record?_change, record?_change, record?_change]
    by_cases hk : k = .lot key
    · subst hk
      simp only [if_true]
      rfl
    · simp only [hk, if_false]

/--
Lots that grew are noted once, however often they are named: a matching names a lot each time that it
lets it grow, so the keys need not be different here and `record?_foldl` does not apply.
-/
theorem record?_foldl_noteGrown (before : Ledger) (keys : List LotKey) (j : Journal) (k : EntityKey) :
    (∃ key lot, k = .lot key ∧ key ∈ keys ∧ before.lot? key = some lot ∧
        (keys.foldl (noteGrown before) j).record? k =
          some (sharesNoted lot ((j.record? k).getD (.start k)))) ∨
      ((∀ key lot, k = .lot key → before.lot? key = some lot → key ∉ keys) ∧
        (keys.foldl (noteGrown before) j).record? k = j.record? k) := by
  induction keys generalizing j with
  | nil => exact .inr ⟨fun _ _ _ _ => List.not_mem_nil, rfl⟩
  | cons key keys ih =>
    rw [List.foldl_cons]
    have hstep := record?_noteGrown before j key k
    by_cases hk : k = .lot key
    · subst hk
      cases hlot : before.lot? key with
      | none =>
        simp only [hlot] at hstep
        rcases ih (noteGrown before j key) with ⟨key', lot, hkey, -, hlot', -⟩ | ⟨-, heq⟩
        · obtain rfl := EntityKey.lot.inj hkey
          simp [hlot] at hlot'
        · refine .inr ⟨fun key' lot hkey hlot' => ?_, heq.trans hstep⟩
          obtain rfl := EntityKey.lot.inj hkey
          simp [hlot] at hlot'
      | some lot =>
        simp only [hlot, if_true] at hstep
        refine .inl ⟨key, lot, rfl, List.mem_cons_self, hlot, ?_⟩
        rcases ih (noteGrown before j key) with ⟨key', lot', hkey, -, hlot', heq⟩ | ⟨-, heq⟩
        · obtain rfl := EntityKey.lot.inj hkey
          obtain rfl := Option.some.inj (hlot.symm.trans hlot')
          rw [heq, hstep, Option.getD_some, sharesNoted_idem]
        · exact heq.trans hstep
    · have hsame : (noteGrown before j key).record? k = j.record? k := by
        rw [hstep]
        cases before.lot? key with
        | none => rfl
        | some lot => exact if_neg hk
      rw [← hsame]
      rcases ih (noteGrown before j key) with ⟨key', lot, hkey, hmem, hrest⟩ | ⟨hnot, heq⟩
      · exact .inl ⟨key', lot, hkey, List.mem_cons_of_mem key hmem, hrest⟩
      · refine .inr ⟨fun key' lot hkey hlot => ?_, heq⟩
        refine List.not_mem_cons_of_ne_of_not_mem ?_ (hnot key' lot hkey hlot)
        rintro rfl
        exact hk hkey

/-! ## The order of first touch -/

/-- Whether every removed entity is kept under its own key. Notices are read off the entities that are
kept, and would tell of another one otherwise. -/
def Filed (j : Journal) : Prop := ∀ t ∈ j.records, ∀ e, t.removed = some e → e.key = t.key

/-- A journal that was written on: the keys from before are there, in their order, and new ones. -/
structure Extends (j j₁ : Journal) : Prop where
  keys : j.keys <+: j₁.keys
  nodup : j.keys.Nodup → j₁.keys.Nodup
  filed : j.Filed → j₁.Filed

/-- A revision files what it keeps under the key of the record, or keeps what was filed there. -/
theorem filed_revised {f : Touched → Touched} {key : EntityKey} {records : List Touched}
    (hf : ∀ t, t.key = key → (∀ e, t.removed = some e → e.key = t.key) →
      ∀ e, (f t).removed = some e → e.key = (f t).key)
    (h : Filed ⟨records⟩) : Filed ⟨Journal.revised f key records⟩ := by
  induction records with
  | nil =>
    intro t ht
    obtain rfl := List.mem_singleton.mp ht
    exact hf _ rfl fun _ he => by cases he
  | cons u rest ih =>
    have hrest : Filed ⟨rest⟩ := fun t ht => h t (List.mem_cons_of_mem u ht)
    intro t ht
    simp only [Journal.revised] at ht
    split at ht
    · rename_i hkey
      rcases List.mem_cons.mp ht with rfl | ht
      · exact hf u hkey (h u List.mem_cons_self)
      · exact hrest t ht
    · rcases List.mem_cons.mp ht with rfl | ht
      · exact h t List.mem_cons_self
      · exact ih hrest t ht

namespace Extends

variable {j j₁ j₂ : Journal}

theorem refl (j : Journal) : j.Extends j := ⟨List.prefix_rfl, fun h => h, fun h => h⟩

theorem trans (h : j.Extends j₁) (h' : j₁.Extends j₂) : j.Extends j₂ :=
  ⟨h.keys.trans h'.keys, fun hn => h'.nodup (h.nodup hn), fun hf => h'.filed (h.filed hf)⟩

/-- Writing on is a matter of single records: whatever revises one of them, and files what it keeps
there, writes on. -/
theorem revised {f : Touched → Touched} (hf : ∀ t, (f t).key = t.key) (j : Journal)
    (key : EntityKey) (hremoved : ∀ t, t.key = key → (∀ e, t.removed = some e → e.key = t.key) →
      ∀ e, (f t).removed = some e → e.key = (f t).key) :
    j.Extends ⟨Journal.revised f key j.records⟩ where
  keys := by
    rw [Journal.keys, Journal.keys, map_key_revised hf]
    split
    · exact List.prefix_rfl
    · exact List.prefix_append _ _
  nodup := nodup_map_key_revised hf key
  filed := filed_revised hremoved

/-- An entity that comes back is not gone any more, so no removed entity is kept. -/
theorem add (j : Journal) (key : EntityKey) : j.Extends (j.add key) := by
  refine revised Touched.key_add j key fun t _ _ e he => ?_
  rw [Touched.add] at he
  split at he
  · split at he <;> cases he
  · rename_i hnone
    cases hnone.symm.trans he

theorem change (j : Journal) (key : EntityKey) (value : FieldValue) :
    j.Extends (j.change key value) := by
  refine revised (Touched.key_change · value) j key fun t _ h e he => ?_
  rw [Touched.key_change]
  rw [Touched.change] at he
  split at he <;> exact h e he

theorem remove (j : Journal) (last : Entity) : j.Extends (j.remove last) := by
  refine revised (Touched.key_remove · last) j last.key fun t hkey _ e he => ?_
  obtain rfl := Option.some.inj he
  exact hkey.symm

theorem removeEntry (j : Journal) (last : Entry) (owner : Option TransactionId) :
    j.Extends (j.removeEntry last owner) := by
  refine revised (f := fun t => (t.keep (.transaction owner)).remove (.entry last)) (fun _ => rfl) j
    (.entry last.id) fun t hkey _ e he => ?_
  obtain rfl := Option.some.inj he
  exact hkey.symm

theorem foldl {α : Type} {f : Journal → α → Journal} (hf : ∀ (j : Journal) a, j.Extends (f j a))
    (j : Journal) (xs : List α) : j.Extends (xs.foldl f j) := by
  induction xs generalizing j with
  | nil => exact refl j
  | cons x xs ih => exact (hf j x).trans (ih (f j x))

theorem addAll (j : Journal) (keys : List EntityKey) : j.Extends (j.addAll keys) := foldl add j keys

theorem noteLots (j : Journal) (before after : Ledger) : j.Extends (j.noteLots before after) := by
  refine foldl (f := noteLot after) (fun j lot => ?_) j before.lots.items
  rw [noteLot]
  split
  · split
    · exact refl j
    · exact change j _ _
  · exact refl j

theorem noteChanges {α : Type} (j : Journal) (changes : Ledger.Changes α) (value : α → FieldValue) :
    j.Extends (Session.noteChanges j changes value) := foldl (fun j _ => change j _ _) j changes

theorem noteLegs {α : Type} (j : Journal) (id : EntryId) (before : α) (other : Option (EntryId × α))
    (value : α → FieldValue) : j.Extends (Session.noteLegs j id before other value) := by
  cases other with
  | none => exact change j _ _
  | some other => exact (change j _ _).trans (change _ _ _)

theorem noteAllocation (j : Journal) (before : Ledger) (a : Allocation) :
    j.Extends (Session.noteAllocation j before a) := by
  refine (addAll j _).trans (foldl (f := noteGrown before) (fun j key => ?_) _ a.updated)
  rw [noteGrown]
  split
  · exact (change j _ _).trans (change _ _ _)
  · exact refl j

end Extends

end Journal

end Lotbook
