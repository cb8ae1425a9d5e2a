/-
# Lotbook.Proofs.EditSteps -- what any edit does under each key

Matching is one step and deleting is many, since lots, the other leg of a transfer and its transaction
go first. With what adding and setting do, every edit is some steps under every key
(`Session.perform_steps`), except for lots that change in a matching whose outcome does not name them
(`Session.Overlooks`).

What a whole edit does is put together from its steps and not read off the two ledgers at its ends:
an entity that goes and whose lots, other leg or owner go with it turns once under its own key, while
the ledgers in between are sound ones, so that the next step finds what it relies on.
-/
import Lotbook.Proofs.Steps

namespace Lotbook

namespace Session

variable {lapse : Prop} {s s₁ : Session} {key : EntityKey}

/-! ## Lots -/

/-- The matching that an edit does, if it does one. -/
def matching? (s : Session) : Edit →
    Option (Except ArithmeticFault (Except LedgerError Allocation × Ledger))
  | .matchLots sale candidates => some (s.ledger.allocateLots sale candidates)
  | .matchByStrategy sale strategy =>
      some (s.ledger.allocateByStrategy sale (strategy.getD s.ledger.settings.lotStrategy))
  | _ => none

/-- Whether the matching that an edit does goes through, if it does one. -/
def Matches (s : Session) (edit : Edit) : Prop :=
  ∀ outcome, s.matching? edit = some outcome → ∃ a l₁, outcome = .ok (.ok a, l₁)

/-- Whether an edit is a matching that changes a lot which its outcome does not name. -/
def Overlooks (s : Session) (edit : Edit) (key : EntityKey) : Prop :=
  ∃ lotKey, key = .lot lotKey ∧ ∃ a l₁, s.matching? edit = some (.ok (.ok a, l₁)) ∧
    l₁.lot? lotKey ≠ s.ledger.lot? lotKey ∧ lotKey ∉ a.created ∧ lotKey ∉ a.updated

section NoteAllocation

variable {a : Allocation} {k : LotKey}

/-- The keys of different lots are different keys. -/
theorem record?_addAll_lots {keys : List LotKey} (h : keys.Nodup) (j : Journal) (k : LotKey) :
    (j.addAll (keys.map .lot)).record? (.lot k) =
      if k ∈ keys then some ((j.record? (.lot k)).getD (.start (.lot k))).add
      else j.record? (.lot k) := by
  have hinjective : Function.Injective EntityKey.lot := fun _ _ h => EntityKey.lot.inj h
  rw [Journal.record?_addAll (h.map hinjective)]
  simp only [List.mem_map_of_injective hinjective]

/-- Of a lot that was not there, a matching notes that it made it, if it did. -/
theorem record?_noteAllocation_of_none (hnodup : a.created.Nodup) (hlot : s.ledger.lot? k = none) :
    (noteAllocation s.journal s.ledger a).record? (.lot k) =
      if k ∈ a.created then some ((s.journal.record? (.lot k)).getD (.start (.lot k))).add
      else s.journal.record? (.lot k) := by
  rw [← record?_addAll_lots hnodup]
  rcases Journal.record?_foldl_noteGrown s.ledger a.updated (s.journal.addAll (a.created.map .lot))
    (.lot k) with ⟨k', lot, hk, -, hlot', -⟩ | ⟨-, heq⟩
  · obtain rfl := EntityKey.lot.inj hk
    simp [hlot] at hlot'
  · exact heq

/-- Of a lot that was there, a matching notes the shares that it had, if it let it grow. A lot that
neither list names has the record that it had. -/
theorem record?_noteAllocation_of_some {lot : Lot} (hnodup : a.created.Nodup)
    (hlot : s.ledger.lot? k = some lot) (hnot : k ∉ a.created) :
    (noteAllocation s.journal s.ledger a).record? (.lot k) = some (Journal.sharesNoted lot
        ((s.journal.record? (.lot k)).getD (.start (.lot k)))) ∨
      k ∉ a.updated ∧
        (noteAllocation s.journal s.ledger a).record? (.lot k) = s.journal.record? (.lot k) := by
  have hadd := (record?_addAll_lots hnodup s.journal k).trans (if_neg hnot)
  rw [← hadd]
  rcases Journal.record?_foldl_noteGrown s.ledger a.updated (s.journal.addAll (a.created.map .lot))
    (.lot k) with ⟨k', lot', hk, -, hlot', heq⟩ | ⟨hnotgrown, heq⟩
  · obtain rfl := EntityKey.lot.inj hk
    obtain rfl := Option.some.inj (hlot.symm.trans hlot')
    exact .inl heq
  · exact .inr ⟨hnotgrown k lot rfl hlot, heq⟩

/-- A matching notes nothing but lots. -/
theorem record?_noteAllocation_of_ne (hnodup : a.created.Nodup) (hkey : ∀ k, key ≠ .lot k) :
    (noteAllocation s.journal s.ledger a).record? key = s.journal.record? key := by
  have hadd := Journal.record?_addAll (hnodup.map fun _ _ h => EntityKey.lot.inj h) s.journal key
  rw [if_neg fun hmem => by
    obtain ⟨k, -, hk⟩ := List.mem_map.mp hmem
    exact hkey k hk.symm] at hadd
  rcases Journal.record?_foldl_noteGrown s.ledger a.updated (s.journal.addAll (a.created.map .lot)) key
    with ⟨k', lot, hk, -⟩ | ⟨-, heq⟩
  · exact absurd hk (hkey k')
  · exact heq.trans hadd

end NoteAllocation

/--
A matching that goes through notes the lots that it made and those that it let grow.

By `hnamed` a lot that changed is in one of the two lists, or else a lapse is allowed under its key: a
lot grows unnamed when the demand is so large that taking its shares off rounds back to the demand.
-/
theorem step_matched {l₁ : Ledger} {a : Allocation} (h : s.ledger.Matched l₁ (.ok a))
    (hnamed : ∀ k, key = .lot k → l₁.lot? k ≠ s.ledger.lot? k →
      (k ∈ a.created ∨ k ∈ a.updated) ∨ lapse) :
    Step lapse key s ⟨l₁, noteAllocation s.journal s.ledger a⟩ where
  changed := h.changed
  journal := .noteAllocation ..
  turn := by
    have hnodup := h.nodup a rfl
    cases key with
    | lot k =>
      have hcreated := h.mem_created a rfl k
      cases hlot : s.ledger.lot? k with
      | none =>
        -- the lot was not there: it is there now if it was made
        have hfacts : s.ledger.facts? (.lot k) = none := by
          rw [Ledger.facts?, hlot]
          rfl
        have hrecord := record?_noteAllocation_of_none hnodup hlot
        cases hnow : l₁.lot? k with
        | none =>
          have hnot : k ∉ a.created := by simp [hcreated, hnow]
          refine .of_eq ?_ (hrecord.trans (if_neg hnot))
          rw [sight, sight, hfacts, Ledger.facts?, hnow]
          rfl
        | some lot =>
          have hmem : k ∈ a.created := by simp [hcreated, hlot, hnow]
          exact .of_added hfacts (Ledger.facts?_lot hnow) (hrecord.trans (if_pos hmem)) rfl
            (.inl trivial)
      | some lot =>
        -- the lot was there: it may have grown
        have hnot : k ∉ a.created := by simp [hcreated, hlot]
        have hfacts : s.ledger.facts? (.lot k) = some lot.facts := Ledger.facts?_lot hlot
        obtain ⟨now, hnow⟩ := Option.isSome_iff_exists.mp (h.stays k (by rw [hlot]; rfl))
        have hafter : l₁.facts? (.lot k) = some now.facts := Ledger.facts?_lot hnow
        rcases record?_noteAllocation_of_some hnodup hlot hnot with hrecord | ⟨hnotgrown, hrecord⟩
        · exact .of_changed lot.facts hfacts hafter hrecord rfl (fun _ hx => hx) fun _ hx => .inr hx
        · by_cases hsame : l₁.lot? k = s.ledger.lot? k
          · refine .of_eq ?_ hrecord
            rw [sight, sight, Ledger.facts?, Ledger.facts?, hsame]
          · -- It grew and no list names it: the one turn that nothing is noted of.
            have hlapse := (hnamed k rfl hsame).resolve_left (not_or.mpr ⟨hnot, hnotgrown⟩)
            exact .of_overlooked hlapse hfacts hafter hrecord rfl
    | transaction i | entry i | category i | stockSplit i d | security i | account i =>
      refine .of_eq ?_ (record?_noteAllocation_of_ne hnodup fun _ h => by cases h)
      rw [sight, sight, h.same]
      rfl

/-- A lot that is deleted is noted with both of its share counts, so that it can come back. -/
theorem step_deleteLot {k : LotKey} (h : s.deleteLot k = .ok s₁) (key : EntityKey) :
    Step lapse key s s₁ := by
  simp only [deleteLot, bind_eq_ok_iff, pure_eq_ok_iff, Prod.exists] at h
  obtain ⟨lot, l₁, hremove, rfl⟩ := h
  obtain ⟨hlot, rfl⟩ := Ledger.removeLot_eq_ok hremove
  obtain rfl : lot.key = k := Ledger.key_of_lot hlot
  have hrecord := Journal.record?_remove s.journal (.lot lot) key
  have hfacts := s.ledger.facts?_eraseLot lot.key
  refine ⟨.single (.dropLot s.ledger lot.key), .remove .., ?_⟩
  by_cases hkey : key = .lot lot.key
  · subst hkey
    exact .of_removed (.lot lot) rfl (fun h => by cases h) (Ledger.facts?_lot hlot)
      ((hfacts _).trans (if_pos rfl)) (hrecord.trans (if_pos rfl))
  · exact .of_eq ((hfacts key).trans (if_neg hkey)) (hrecord.trans (if_neg hkey))

theorem Steps.changed (h : Steps lapse key s s₁) : s.ledger.Changed s₁.ledger := by
  induction h with
  | refl => exact .refl
  | tail _ hstep ih => exact ih.trans hstep.changed

theorem Steps.journal (h : Steps lapse key s s₁) : s.journal.Extends s₁.journal := by
  induction h with
  | refl => exact .refl _
  | tail _ hstep ih => exact ih.trans hstep.journal

/-- Deleting lots takes out the ones named, and nothing but lots. The induction is on the keys; one that
is named twice would be refused the second time, and then there is no `s₁`. -/
theorem deleteLots_eq_ok {keys : List LotKey} (h : keys.foldlM deleteLot s = .ok s₁) :
    (∀ lapse key, Steps lapse key s s₁) ∧ s.ledger.SameButLots s₁.ledger ∧
      ∀ k, s₁.ledger.lot? k = if k ∈ keys then none else s.ledger.lot? k := by
  induction keys generalizing s with
  | nil =>
    obtain rfl : s = s₁ := pure_eq_ok_iff.mp h
    exact ⟨fun _ _ => .refl, rfl, fun k => rfl⟩
  | cons k keys ih =>
    rw [List.foldlM_cons, bind_eq_ok_iff] at h
    obtain ⟨s₂, hdelete, h⟩ := h
    obtain ⟨hsteps, hsame, hlots⟩ := ih h
    have hstep (lapse : Prop) (key : EntityKey) : Step lapse key s s₂ := step_deleteLot hdelete key
    simp only [deleteLot, bind_eq_ok_iff, pure_eq_ok_iff, Prod.exists] at hdelete
    obtain ⟨lot, l₂, hremove, rfl⟩ := hdelete
    obtain ⟨-, rfl⟩ := Ledger.removeLot_eq_ok hremove
    refine ⟨fun lapse key => (hsteps lapse key).head (hstep lapse key),
      (Ledger.sameButLots_mk ..).trans hsame, fun k' => ?_⟩
    rw [hlots, Ledger.lot?_erase]
    by_cases hkk : k' = k <;> by_cases hmem : k' ∈ keys <;> simp [hkk, hmem]

/-! ## Deletion -/

/-- No entry came in, and none went over to another transaction. This is what a deletion leaves to the
ones after it: an entry that is gone stays gone, and a transaction only loses entries. -/
def Shrinks (s s₁ : Session) : Prop :=
  ∀ i x, s₁.ledger.entry? i = some x →
    ∃ y, s.ledger.entry? i = some y ∧ x.transaction = y.transaction

theorem Shrinks.trans {s₂ : Session} (h : Shrinks s s₁) (h' : Shrinks s₁ s₂) : Shrinks s s₂ := by
  intro i x hx
  obtain ⟨y, hy, hxy⟩ := h' i x hx
  obtain ⟨z, hz, hyz⟩ := h i y hy
  exact ⟨z, hz, hxy.trans hyz⟩

theorem Shrinks.entry?_eq_none (h : Shrinks s s₁) {id : EntryId} (hid : s.ledger.entry? id = none) :
    s₁.ledger.entry? id = none := by
  refine Option.eq_none_iff_forall_ne_some.mpr fun x hx => ?_
  obtain ⟨y, hy, -⟩ := h id x hx
  simp [hid] at hy

/-- What deleting does: some steps under every key, after which the entries named are gone. -/
structure Deletes (s s₁ : Session) (gone : EntryId → Prop) : Prop where
  steps : ∀ lapse key, Steps lapse key s s₁
  shrinks : Shrinks s s₁
  gone : ∀ id, gone id → s₁.ledger.entry? id = none

theorem Deletes.trans {s₂ : Session} {gone gone' : EntryId → Prop} (h : Deletes s s₁ gone)
    (h' : Deletes s₁ s₂ gone') : Deletes s s₂ fun id => gone id ∨ gone' id where
  steps lapse key := (h.steps lapse key).trans (h'.steps lapse key)
  shrinks := h.shrinks.trans h'.shrinks
  gone id hid := by
    rcases hid with hid | hid
    · exact h'.shrinks.entry?_eq_none (h.gone id hid)
    · exact h'.gone id hid

theorem Deletes.mono {gone gone' : EntryId → Prop} (h : Deletes s s₁ gone)
    (hgone : ∀ id, gone' id → gone id) : Deletes s s₁ gone' :=
  ⟨h.steps, h.shrinks, fun id hid => h.gone id (hgone id hid)⟩

/--
Removing an entry takes some steps: its lots go one by one, then the entry itself. What is noted of
it is the entry as it is given back, which has no owner any more; the owner is kept beside it.
The lots that the ledger would drop with the entry are gone by then (`hfree`), so the last step shows
under the key of the entry only.
-/
theorem removeEntry_deletes (hs : s.ledger.Sound) {id : EntryId} (h : s.removeEntry id = .ok s₁) :
    Deletes s s₁ (· = id) := by
  simp only [removeEntry, bind_eq_ok_iff, pure_eq_ok_iff, Prod.exists] at h
  obtain ⟨s₂, hlots, removed, l₁, hremove, rfl⟩ := h
  obtain ⟨hsteps, hsame, hdropped⟩ := deleteLots_eq_ok hlots
  have hs₂ : s₂.ledger.Sound := (hsteps False (.entry id)).changed.sound hs
  have hchanged : s₂.ledger.Changed l₁ := .single (.removeEntry hremove)
  have hentry := hs₂.paired.entry?_removeEntry hremove
  obtain ⟨e, he, rfl, -⟩ := Ledger.removeEntry_eq_ok hremove
  obtain rfl : e.id = id := Ledger.id_of_entry he
  have hsame_entry : ∀ i, s₂.ledger.entry? i = s.ledger.entry? i := by
    rw [hsame]
    exact fun _ => rfl
  -- the lots of the entry are gone already
  have hfree : ∀ k, (k.purchase = e.id ∨ k.sale = e.id) → s₂.ledger.lot? k = none := by
    intro k hk
    rw [hdropped]
    cases hlot' : s.ledger.lot? k with
    | none => exact ite_self none
    | some lot => exact if_pos (Ledger.mem_lotsTouching_iff.mpr ⟨⟨lot, hlot'⟩, hk⟩)
  have hfacts := Ledger.facts?_removeEntry hs₂.paired hfree hremove
  have hrecord := Journal.record?_removeEntry s₂.journal { e with transaction := none }
    ((s₂.ledger.entry? e.id).bind Entry.transaction)
  refine ⟨fun lapse key => (hsteps lapse key).tail ⟨hchanged, .removeEntry .., ?_⟩, fun i x hx => ?_,
    fun i hi => by rw [hentry, if_pos hi]⟩
  · by_cases hkey : key = .entry e.id
    · subst hkey
      refine .of_detached (e := e) rfl (Ledger.facts?_entry he) ((hfacts _).trans (if_pos rfl))
        ((hrecord _).trans ((if_pos rfl).trans ?_))
      rw [he]
      rfl
    · exact .of_eq ((hfacts key).trans (if_neg hkey)) ((hrecord key).trans (if_neg hkey))
  · -- An entry that is left is one from before, unlinked at most.
    obtain ⟨-, y, hy, rfl⟩ := hs₂.paired.of_entry?_removeEntry hremove hx
    exact ⟨y, hsame_entry i ▸ hy, Ledger.transaction_unlinked y e.id⟩

/-- A transaction without entries is removed by itself: the entries that the removal would take along
are none. -/
theorem removeTransaction_eq_ok {id : TransactionId}
    (hempty : ∀ t, s.ledger.transaction? id = some t → t.details = [])
    (h : s.removeTransaction id = .ok s₁) :
    ∃ t, s.ledger.transaction? id = some t ∧
      s₁ = ⟨{ s.ledger with transactions := s.ledger.transactions.erase id },
        s.journal.remove (.transaction t)⟩ := by
  simp only [removeTransaction, Ledger.removeTransaction, bind_eq_ok_iff, orError_eq_ok_iff,
    pure_eq_ok_iff, Prod.exists] at h
  obtain ⟨t, l₁, ⟨t₀, ht₀, l₂, hentries, t', ht', h⟩, rfl⟩ := h
  obtain ⟨rfl, rfl⟩ := Prod.mk.inj h
  rw [hempty t₀ ht₀] at hentries
  obtain rfl : s.ledger = l₂ := pure_eq_ok_iff.mp hentries
  exact ⟨t', ht', rfl⟩

/-- Removing a transaction without entries is one step. No entry names it as its owner then (`hfree`),
since an owner lists its entries. -/
theorem removeTransaction_deletes (hs : s.ledger.Sound) {id : TransactionId}
    (hempty : ∀ t, s.ledger.transaction? id = some t → t.details = [])
    (h : s.removeTransaction id = .ok s₁) : Deletes s s₁ fun _ => False := by
  obtain ⟨t₀, ht₀, rfl⟩ := removeTransaction_eq_ok hempty h
  obtain rfl : t₀.id = id := Ledger.id_of_transaction ht₀
  have hfree : ∀ i e, s.ledger.entry? i = some e → e.transaction ≠ some t₀.id := by
    intro i e he howner
    obtain ⟨owner, t, howner', ht, hmem⟩ := hs.owned.owner i e he
    obtain rfl := Option.some.inj (howner.symm.trans howner')
    rw [hempty t ht] at hmem
    exact List.not_mem_nil hmem
  have hrecord := Journal.record?_remove s.journal (.transaction t₀)
  refine ⟨fun lapse key => .single ⟨.single (.dropTransaction hfree), .remove .., ?_⟩,
    fun i x hx => ⟨x, hx, rfl⟩, fun _ h => h.elim⟩
  have hfacts := s.ledger.facts?_eraseTransaction t₀.id
  by_cases hkey : key = .transaction t₀.id
  · subst hkey
    exact .of_removed (.transaction t₀) rfl (fun h => by cases h) (Ledger.facts?_transaction ht₀)
      ((hfacts _).trans (if_pos rfl)) ((hrecord _).trans (if_pos rfl))
  · exact .of_eq ((hfacts key).trans (if_neg hkey)) ((hrecord key).trans (if_neg hkey))

theorem Deletes.sound {gone : EntryId → Prop} (h : Deletes s s₁ gone) (hs : s.ledger.Sound) :
    s₁.ledger.Sound := (h.steps False (.account ⟨0⟩)).changed.sound hs

/--
Deleting an entry removes it, then the other leg of its transfer, then the transaction of that leg if
it has no entries left. The cases are those of the definition: no other leg, another leg without an
owner, an owner that keeps entries, and one that is emptied; each is some of the removals in a row.
-/
theorem deleteEntry_deletes (hs : s.ledger.Sound) {id : EntryId} (h : s.deleteEntry id = .ok s₁) :
    Deletes s s₁ (· = id) := by
  simp only [deleteEntry, bind_eq_ok_iff, orError_eq_ok_iff] at h
  obtain ⟨e, he, s₂, hremove, h⟩ := h
  have hdeletes := removeEntry_deletes hs hremove
  split at h
  · obtain rfl : s₂ = s₁ := pure_eq_ok_iff.mp h
    exact hdeletes
  · rename_i other _
    rw [bind_eq_ok_iff] at h
    obtain ⟨s₃, hremove', h⟩ := h
    have hboth := hdeletes.trans (removeEntry_deletes (hdeletes.sound hs) hremove')
    split at h
    · obtain rfl : s₃ = s₁ := pure_eq_ok_iff.mp h
      exact hboth.mono fun _ => .inl
    · rename_i otherOwner _
      split at h
      · rename_i hemptied
        have hempty : ∀ t, s₃.ledger.transaction? otherOwner = some t → t.details = [] := by
          intro t ht
          have := hemptied.2
          rw [ht] at this
          exact Option.some.inj this
        exact (hboth.trans (removeTransaction_deletes (hboth.sound hs) hempty h)).mono
          fun _ hid => .inl (.inl hid)
      · obtain rfl : s₃ = s₁ := pure_eq_ok_iff.mp h
        exact hboth.mono fun _ => .inl

/-- Doing nothing deletes the entries that are not there. -/
theorem deletes_refl (s : Session) : Deletes s s fun id => s.ledger.entry? id = none :=
  ⟨fun _ _ => .refl, fun _ x hx => ⟨x, hx, rfl⟩, fun _ h => h⟩

/-- Deleting entries leaves none of them. One that went with another, as the other leg of the same
transfer, is passed over when it is its turn. -/
theorem deleteEntries_deletes (hs : s.ledger.Sound) {ids : List EntryId}
    (h : s.deleteEntries ids = .ok s₁) : Deletes s s₁ (· ∈ ids) := by
  induction ids generalizing s with
  | nil =>
    obtain rfl : s = s₁ := pure_eq_ok_iff.mp h
    exact (deletes_refl s).mono fun id hid => (List.not_mem_nil hid).elim
  | cons id ids ih =>
    rw [deleteEntries, List.foldlM_cons, bind_eq_ok_iff] at h
    obtain ⟨s₂, hdelete, h⟩ := h
    have hfirst : Deletes s s₂ (· = id) := by
      split at hdelete
      · exact deleteEntry_deletes hs hdelete
      · rename_i hnone
        obtain rfl : s = s₂ := pure_eq_ok_iff.mp hdelete
        refine (deletes_refl s).mono fun i hi => ?_
        rw [hi]
        simpa using hnone
    exact (hfirst.trans (ih (hfirst.sound hs) h)).mono fun i hi => List.mem_cons.mp hi

/--
Deleting a transaction deletes its entries and then removes it. When both legs of a transfer are in
it, it is not deleted together with the last of them, so that it is still there to be removed.
-/
theorem deleteTransaction_deletes (hs : s.ledger.Sound) {id : TransactionId}
    (h : s.deleteTransaction id = .ok s₁) : Deletes s s₁ fun _ => False := by
  simp only [deleteTransaction, bind_eq_ok_iff, orError_eq_ok_iff] at h
  obtain ⟨t, ht, s₂, hentries, h⟩ := h
  have hdeletes := deleteEntries_deletes hs hentries
  split at h
  · -- whatever the transaction still had would have been among its entries before
    have hempty : ∀ t', s₂.ledger.transaction? id = some t' → t'.details = [] := by
      intro t' ht'
      refine List.eq_nil_iff_forall_not_mem.mpr fun i hi => ?_
      obtain ⟨x, hx, howner⟩ := (hdeletes.sound hs).owned.detail id t' ht' i hi
      obtain ⟨y, hy, hxy⟩ := hdeletes.shrinks i x hx
      obtain ⟨owner, t₀, hy', ht₀, hmem⟩ := hs.owned.owner i y hy
      obtain rfl : id = owner := Option.some.inj (howner.symm.trans (hxy.trans hy'))
      obtain rfl := Option.some.inj (ht.symm.trans ht₀)
      have := hdeletes.gone i hmem
      simp [this] at hx
    exact (hdeletes.trans (removeTransaction_deletes (hdeletes.sound hs) hempty h)).mono
      fun _ hid => hid.elim
  · obtain rfl : s₂ = s₁ := pure_eq_ok_iff.mp h
    exact hdeletes.mono fun _ hid => hid.elim

/-! ## Edits -/

/--
A matching is one step under every key that it deals with as it says. One that is refused may have
made lots before, which are in the ledger and not in the journal: then there is no step under the keys
of lots, and `hmatches` sets those aside.
-/
theorem steps_matching (edit : Edit) {refusal : Option Failure} {l₁ : Ledger}
    {outcome : Except LedgerError Allocation}
    (hmatching : s.matching? edit = some (.ok (outcome, l₁))) (h : s.ledger.Matched l₁ outcome)
    (heq : matchAftermath (s.matched (outcome, l₁)) = (refusal, s₁))
    (hmatches : key.kind = .lot → s.Matches edit) (hlapse : s.Overlooks edit key → lapse) :
    Steps lapse key s s₁ := by
  cases outcome with
  | ok a =>
    obtain ⟨rfl, rfl⟩ := Prod.mk.inj heq
    refine .single (step_matched h fun k hk hne => ?_)
    by_cases hnot : k ∈ a.created ∨ k ∈ a.updated
    · exact .inl hnot
    · obtain ⟨hcreated, hupdated⟩ := not_or.mp hnot
      exact .inr (hlapse ⟨k, hk, a, l₁, hmatching, hne, hcreated, hupdated⟩)
  | error e =>
    obtain ⟨rfl, rfl⟩ := Prod.mk.inj heq
    refine .single ⟨h.changed, .refl _, .of_eq ?_ rfl⟩
    rw [sight, sight, h.same]
    cases key with
    | lot k =>
      obtain ⟨a, l₂, hok⟩ := hmatches rfl _ hmatching
      cases hok
    | transaction i | entry i | category i | stockSplit i d | security i | account i => rfl

/-- An edit is some steps under every key, with a lapse under those of lots that a matching overlooks;
a matching that is refused after it made lots leaves them unnoted altogether. -/
theorem perform_steps (hs : s.ledger.Sound) {edit : Edit} {refusal : Option Failure}
    (hedit : s.perform edit = .ok (refusal, s₁)) (key : EntityKey)
    (hmatches : key.kind = .lot → s.Matches edit) (hlapse : s.Overlooks edit key → lapse) :
    Steps lapse key s s₁ := by
  -- An edit that is refused leaves the session as it is, and that is no step at all.
  have settled : ∀ {x : Except LedgerError Session},
      Except.ok (ε := ArithmeticFault) (settle s x) = .ok (refusal, s₁) →
      (∀ s₂, x = .ok s₂ → Steps lapse key s s₂) → Steps lapse key s s₁ := by
    intro x hx hok
    rcases settle_cases hx with hx | rfl
    · exact hok s₁ hx
    · exact .refl
  have attempted : ∀ {x : Except Failure Session}, attempt s x = .ok (refusal, s₁) →
      (∀ s₂, x = .ok s₂ → Steps lapse key s s₂) → Steps lapse key s s₁ := by
    intro x hx hok
    rcases attempt_cases hx with hx | rfl
    · exact hok s₁ hx
    · exact .refl
  cases edit with
  | addSecurity name =>
    obtain ⟨rfl, rfl⟩ := Prod.mk.inj (Except.ok.inj hedit)
    exact .single (step_addSecurity hs name key)
  | addCategory code affectsBalance action =>
    obtain ⟨rfl, rfl⟩ := Prod.mk.inj (Except.ok.inj hedit)
    exact .single (step_addCategory hs code affectsBalance action key)
  | addSplit id split => exact attempted hedit fun s₂ h => .single (step_addSplit h key)
  | deleteSplit id date =>
    refine attempted hedit fun s₂ h => ?_
    obtain ⟨⟨found, _⟩, hdelete, rfl⟩ := map_eq_ok_iff.mp h
    exact .single (step_deleteSplit hdelete key)
  | addTransaction account date security =>
    obtain ⟨rfl, rfl⟩ := Prod.mk.inj (Except.ok.inj hedit)
    exact .single (step_addTransaction hs account date security key)
  | setAccount id account => exact settled hedit fun s₂ h => .single (step_setAccount h key)
  | setDate id date => exact attempted hedit fun s₂ h => .single (step_setDate h key)
  | setSecurity id security => exact attempted hedit fun s₂ h => .single (step_setSecurity h key)
  | deleteTransaction id =>
    exact settled hedit fun s₂ h => (deleteTransaction_deletes hs h).steps lapse key
  | addEntry transaction amount quantity category =>
    refine settled hedit fun s₂ h => ?_
    obtain ⟨⟨id, _⟩, hadd, rfl⟩ := map_eq_ok_iff.mp h
    exact .single (step_addEntry hs hadd key)
  | addTransfer transaction otherAccount amount quantity =>
    refine settled hedit fun s₂ h => ?_
    obtain ⟨⟨legs, _⟩, hadd, rfl⟩ := map_eq_ok_iff.mp h
    exact .single (step_addTransfer hs hadd key)
  | setAmount id amount => exact settled hedit fun s₂ h => .single (step_setAmount hs h key)
  | setQuantity id quantity => exact settled hedit fun s₂ h => .single (step_setQuantity hs h key)
  | setCategory id category => exact settled hedit fun s₂ h => .single (step_setCategory h key)
  | deleteEntry id => exact settled hedit fun s₂ h => (deleteEntry_deletes hs h).steps lapse key
  | matchLots sale candidates =>
    obtain ⟨outcome, hmatch, heq⟩ := map_eq_ok_iff.mp hedit
    simp only [matchLots, bind_eq_ok_iff, pure_eq_ok_iff, Prod.exists] at hmatch
    obtain ⟨o, l₁, hmatch, rfl⟩ := hmatch
    exact steps_matching (.matchLots sale candidates) (congrArg some hmatch)
      (Ledger.allocateLots_matched hmatch) heq hmatches hlapse
  | matchByStrategy sale strategy =>
    obtain ⟨outcome, hmatch, heq⟩ := map_eq_ok_iff.mp hedit
    simp only [matchByStrategy, bind_eq_ok_iff, pure_eq_ok_iff, Prod.exists] at hmatch
    obtain ⟨o, l₁, hmatch, rfl⟩ := hmatch
    exact steps_matching (.matchByStrategy sale strategy) (congrArg some hmatch)
      (Ledger.allocateByStrategy_matched hmatch) heq hmatches hlapse
  | deleteLot k => exact settled hedit fun s₂ h => .single (step_deleteLot h key)

end Session

end Lotbook
