/-
# Lotbook.Proofs.Steps -- what adding and setting does under each key

Every edit in a session is a step, or some steps in a row: the ledger goes through elementary changes,
the journal is written on, and what happens to the entity under a key is what the journal notes under
that key (`Session.Step`). Here are the edits that add entities or set their fields, and those of
dates, securities and splits, on which lots are derived again.
-/
import Lotbook.Proofs.Journals
import Lotbook.Proofs.Soundness

namespace Lotbook

namespace Ledger

/-! ## Facts in a changed ledger

One equation for each write: the key under which it shows, and the facts that are there then. What a
session does not follow (names, memos, the entries that a transaction lists) shows under no key.
-/

variable {l : Ledger}

theorem facts?_transaction {id : TransactionId} {t : Transaction} (h : l.transaction? id = some t) :
    l.facts? (.transaction id) = some t.facts := by
  rw [facts?, h]
  rfl

theorem facts?_entry {id : EntryId} {e : Entry} (h : l.entry? id = some e) :
    l.facts? (.entry id) = some e.facts := by
  rw [facts?, h]
  rfl

theorem facts?_lot {key : LotKey} {lot : Lot} (h : l.lot? key = some lot) :
    l.facts? (.lot key) = some lot.facts := by
  rw [facts?, h]
  rfl

variable (l)

/-- A new security has no split yet, and `hnone` says that none was filed under its number before. -/
theorem facts?_addSecurity (hnone : l.security? ⟨l.issued + 1⟩ = none) (name : String)
    (key : EntityKey) :
    (l.addSecurity name).2.facts? key =
      if key = .security ⟨l.issued + 1⟩ then some [] else l.facts? key := by
  have hput := l.security?_addSecurity name
  cases key with
  | security id =>
    rw [facts?, hput]
    by_cases hid : id = ⟨l.issued + 1⟩
    · simp [hid]
    · simp [hid, facts?]
  | stockSplit id date =>
    rw [if_neg (by simp), facts?, facts?, hput]
    by_cases hid : id = ⟨l.issued + 1⟩
    · rw [if_pos hid, hid, hnone]
      rfl
    · rw [if_neg hid]
  | transaction id | entry id | lot id | category id | account id => rfl

theorem facts?_addCategory (code : String) (affectsBalance : Bool) (action : Option SecurityAction)
    (key : EntityKey) :
    (l.addCategory code affectsBalance action).2.facts? key =
      if key = .category ⟨l.issued + 1⟩ then some [] else l.facts? key := by
  cases key with
  | category id =>
    rw [facts?, l.category?_addCategory]
    by_cases hid : id = ⟨l.issued + 1⟩
    · simp [hid]
    · simp [hid, facts?]
  | transaction id | entry id | lot id | stockSplit id date | security id | account id => rfl

theorem facts?_putTransaction (t : Transaction) (key : EntityKey) :
    facts? { l with transactions := l.transactions.put t } key =
      if key = .transaction t.id then some t.facts else l.facts? key := by
  cases key with
  | transaction id =>
    rw [facts?, transaction?_put]
    by_cases hid : id = t.id
    · simp [hid]
    · simp [hid, facts?]
  | entry id | lot id | category id | stockSplit id date | security id | account id => rfl

theorem facts?_addTransaction (account : AccountId) (date : Date) (security : Option SecurityId)
    (key : EntityKey) :
    (l.addTransaction account date security).2.facts? key =
      if key = .transaction ⟨l.issued + 1⟩ then some [.account account, .date date, .security security]
      else l.facts? key :=
  facts?_putTransaction { l with issued := l.issued + 1 }
    ⟨⟨l.issued + 1⟩, account, date, security, none, []⟩ key

theorem facts?_putEntry (e : Entry) (key : EntityKey) :
    facts? { l with entries := l.entries.put e } key =
      if key = .entry e.id then some e.facts else l.facts? key := by
  cases key with
  | entry id =>
    rw [facts?, entry?_put]
    by_cases hid : id = e.id
    · simp [hid]
    · simp [hid, facts?]
  | transaction id | lot id | category id | stockSplit id date | security id | account id => rfl

/-- Filing an entry shows under its own key only, though its transaction lists it from then on. -/
theorem facts?_attach {e : Entry} {owner : TransactionId} (howner : e.transaction = some owner)
    (key : EntityKey) :
    (l.attach e).facts? key = if key = .entry e.id then some e.facts else l.facts? key := by
  cases key with
  | transaction id =>
    rw [if_neg (by simp), facts?, transaction?_attach l howner]
    split
    · rw [Option.map_map]
      rfl
    · rfl
  | entry id =>
    rw [facts?, entry?_attach]
    by_cases hid : id = e.id
    · simp [hid]
    · simp [hid, facts?]
  | category id | lot id | stockSplit id date | security id | account id => rfl

/-- Another history shows under the splits of its security, on every date at once. -/
theorem facts?_withHistory {sec : Security} {id : SecurityId}
    (hsec : l.security? id = some sec) (history : SplitHistory) (key : EntityKey) :
    (l.withHistory sec history).facts? key =
      if let .stockSplit i date := key then
        if i = id then (history.on? date).map StockSplit.facts else l.facts? key
      else l.facts? key := by
  obtain rfl : sec.id = id := id_of_security hsec
  cases key with
  | stockSplit i date =>
    dsimp only
    rw [facts?, security?_withHistory]
    split <;> rfl
  | security i =>
    dsimp only
    rw [facts?, facts?, security?_withHistory]
    split
    · rename_i hi
      rw [hi, hsec]
      rfl
    · rfl
  | transaction i | entry i | lot i | category i | account i => rfl

/-- Revising the legs of a transfer shows under their two keys. -/
theorem facts?_reviseLegs {e : Entry} {here there : Entry → Entry} (he : l.entry? e.id = some e)
    (hne : e.related ≠ some e.id) (hhere : (here e).id = e.id) (hthere : ∀ o, (there o).id = o.id) :
    (l.reviseLegs e here there).facts? (.entry e.id) = some (here e).facts ∧
      (∀ o, l.entry? o.id = some o → e.related = some o.id →
        (l.reviseLegs e here there).facts? (.entry o.id) = some (there o).facts) ∧
      ∀ key, key ≠ .entry e.id → (∀ other, e.related = some other → key ≠ .entry other) →
        (l.reviseLegs e here there).facts? key = l.facts? key := by
  have hentry := l.entry?_reviseLegs he hne hhere hthere
  refine ⟨facts?_entry ?_, fun o ho hrel => facts?_entry ?_, fun key hkey hother => ?_⟩
  · rw [hentry, he, Option.map_some, if_pos rfl]
  · have hid : o.id ≠ e.id := fun h => hne (h ▸ hrel)
    rw [hentry, ho, Option.map_some, if_neg hid, if_pos hrel]
  · cases key with
    | entry i =>
      have hid : i ≠ e.id := fun h => hkey (by rw [h])
      have hrel : e.related ≠ some i := fun h => hother i h rfl
      rw [facts?, facts?, hentry]
      simp only [hid, hrel, if_false, Option.map_id']
    | transaction i | category i | lot i | stockSplit i date | security i | account i =>
      rw [reviseLegs_eq]
      rfl

/--
Removing an entry that no lot has a part in shows under its own key only. The entry goes off its
transaction's list, too, and its identity off the other leg, and neither is among the facts there.
-/
theorem facts?_removeEntry {l l₁ : Ledger} {id : EntryId} {removed : Entry} (hpaired : l.Paired)
    (hfree : ∀ k : LotKey, k.purchase = id ∨ k.sale = id → l.lot? k = none)
    (h : l.removeEntry id = .ok (removed, l₁)) (key : EntityKey) :
    l₁.facts? key = if key = .entry id then none else l.facts? key := by
  have hentry := hpaired.entry?_removeEntry h
  obtain ⟨e, -, -, htransaction, -, hlot, hl₁⟩ := removeEntry_eq_ok h
  cases key with
  | transaction i =>
    rw [if_neg (by simp), facts?, facts?, htransaction]
    split
    · rw [Option.map_map]
      rfl
    · rfl
  | entry i =>
    rw [facts?, hentry]
    by_cases hi : i = id
    · simp [hi]
    · have hfacts : Entry.facts ∘ (fun x : Entry => unlinked x id) = Entry.facts := by
        funext x
        simp [Entry.facts]
      simp only [hi, if_false, EntityKey.entry.injEq, Option.map_map, facts?, hfacts]
  | lot k =>
    rw [if_neg (by simp), facts?, facts?, hlot]
    split
    · rename_i hk
      rw [hfree k hk]
    · rfl
  | stockSplit i d | security i | category i | account i =>
    rw [hl₁]
    rfl

theorem facts?_eraseTransaction (id : TransactionId) (key : EntityKey) :
    facts? { l with transactions := l.transactions.erase id } key =
      if key = .transaction id then none else l.facts? key := by
  cases key with
  | transaction i =>
    rw [facts?, transaction?_erase]
    by_cases hi : i = id
    · simp [hi]
    · simp [hi, facts?]
  | entry i | lot i | category i | stockSplit i date | security i | account i => rfl

theorem facts?_eraseLot (lotKey : LotKey) (key : EntityKey) :
    facts? { l with lots := l.lots.erase lotKey } key =
      if key = .lot lotKey then none else l.facts? key := by
  cases key with
  | lot k =>
    rw [facts?, lot?_erase]
    by_cases hk : k = lotKey
    · simp [hk]
    · simp [hk, facts?]
  | transaction i | entry i | category i | stockSplit i date | security i | account i => rfl

end Ledger

namespace Session

/-! ## Steps -/

/-- What there is under a key, in the ledger and in the journal. -/
def sight (s : Session) (key : EntityKey) : Sight := ⟨s.ledger.facts? key, s.journal.record? key⟩

/--
One thing done to a ledger in a session, as seen from one key. The entity changes unnoted only where
a `lapse` is allowed.

A step holds for one key and not for all at once, because a matching that overlooks a lot is a step
without a lapse under every key but that lot's (`EditSteps`).
-/
structure Step (lapse : Prop) (key : EntityKey) (s s₁ : Session) : Prop where
  changed : s.ledger.Changed s₁.ledger
  journal : s.journal.Extends s₁.journal
  turn : Turn lapse s.ledger.issued key (s.sight key) (s₁.sight key)

/-- Steps, one after the other. -/
abbrev Steps (lapse : Prop) (key : EntityKey) : Session → Session → Prop :=
  Relation.ReflTransGen (Step lapse key)

variable {lapse : Prop} {s s₁ : Session} {key : EntityKey}

/-! ## New entities -/

/-- Entities that are added under new numbers are noted as added. -/
theorem step_addAll (hs : s.ledger.Sound) {l₁ : Ledger} (keys : List EntityKey)
    (hchanged : s.ledger.Changed l₁) (hnodup : keys.Nodup)
    (hnew : ∀ k ∈ keys, k.IsNew s.ledger.issued ∧ (l₁.facts? k).isSome)
    (hother : ∀ k, k ∉ keys → l₁.facts? k = s.ledger.facts? k) (key : EntityKey) :
    Step lapse key s ⟨l₁, s.journal.addAll keys⟩ where
  changed := hchanged
  journal := .addAll s.journal keys
  turn := by
    have hrecord := Journal.record?_addAll hnodup s.journal key
    by_cases hkey : key ∈ keys
    · -- Nothing was there under a number that was not issued, so the entity does come in.
      obtain ⟨hissued, hsome⟩ := hnew key hkey
      obtain ⟨facts, hfacts⟩ := Option.isSome_iff_exists.mp hsome
      rw [if_pos hkey] at hrecord
      exact .of_added (hs.given.facts?_eq_none hissued) hfacts hrecord (Ledger.fields_of_facts? hfacts)
        (.inr hissued)
    · rw [if_neg hkey] at hrecord
      exact .of_eq (hother key hkey) hrecord

/-- The case of one entity, with its facts and all others in one equation. -/
theorem step_add (hs : s.ledger.Sound) {l₁ : Ledger} {k : EntityKey} {facts : List FieldValue}
    (hchanged : s.ledger.Changed l₁) (hnew : k.IsNew s.ledger.issued)
    (hfacts : ∀ k', l₁.facts? k' = if k' = k then some facts else s.ledger.facts? k')
    (key : EntityKey) : Step lapse key s ⟨l₁, s.journal.add k⟩ := by
  refine step_addAll hs [k] hchanged (List.nodup_singleton k) (fun k' hk' => ?_) (fun k' hk' => ?_) key
  · obtain rfl := List.mem_singleton.mp hk'
    refine ⟨hnew, ?_⟩
    rw [hfacts, if_pos rfl]
    rfl
  · rw [hfacts, if_neg (mt List.mem_singleton.mpr hk')]

theorem step_addSecurity (hs : s.ledger.Sound) (name : String) (key : EntityKey) :
    Step lapse key s (s.addSecurity name).2 :=
  step_add hs (.single (.addSecurity s.ledger name)) (Int.lt_succ _)
    (s.ledger.facts?_addSecurity (hs.given.security?_eq_none (Int.lt_succ _)) name) key

theorem step_addCategory (hs : s.ledger.Sound) (code : String) (affectsBalance : Bool)
    (action : Option SecurityAction) (key : EntityKey) :
    Step lapse key s (s.addCategory code affectsBalance action).2 :=
  step_add hs (.single (.addCategory s.ledger code affectsBalance action)) (Int.lt_succ _)
    (s.ledger.facts?_addCategory code affectsBalance action) key

theorem step_addTransaction (hs : s.ledger.Sound) (account : AccountId) (date : Date)
    (security : Option SecurityId) (key : EntityKey) :
    Step lapse key s (s.addTransaction account date security).2 :=
  step_add hs (.single (.addTransaction s.ledger account date security)) (Int.lt_succ _)
    (s.ledger.facts?_addTransaction account date security) key

/-- An entry is the only thing that is noted when it is added: that its transaction lists it now is
a matter of the entry's owner. -/
theorem step_addEntry (hs : s.ledger.Sound) {transaction : TransactionId}
    {amount quantity : Option Decimal} {category : Option CategoryId} {id : EntryId}
    (h : s.addEntry transaction amount quantity category = .ok (id, s₁)) (key : EntityKey) :
    Step lapse key s s₁ := by
  simp only [addEntry, bind_eq_ok_iff, pure_eq_ok_iff, Prod.exists] at h
  obtain ⟨id', l₁, hadd, h⟩ := h
  obtain ⟨rfl, rfl⟩ := Prod.mk.inj h
  have hchanged : s.ledger.Changed l₁ := .single (.addEntry hadd)
  obtain ⟨-, -, rfl, rfl⟩ := Ledger.addEntry_eq_ok hadd
  exact step_add hs hchanged (Int.lt_succ _) (Ledger.facts?_attach _ rfl) key

/-- A transfer notes three entities, in the order in which their numbers are issued: the transaction
of the other side, the leg here, the leg there. -/
theorem step_addTransfer (hs : s.ledger.Sound) {transaction : TransactionId}
    {otherAccount : AccountId} {amount quantity : Option Decimal} {legs : EntryId × EntryId}
    (h : s.addTransfer transaction otherAccount amount quantity = .ok (legs, s₁)) (key : EntityKey) :
    Step lapse key s s₁ := by
  simp only [addTransfer, bind_eq_ok_iff, pure_eq_ok_iff, Prod.exists] at h
  obtain ⟨leg, otherLeg, l₁, hadd, h⟩ := h
  obtain ⟨rfl, rfl⟩ := Prod.mk.inj h
  have hchanged : s.ledger.Changed l₁ := .single (.addTransfer hadd)
  obtain ⟨t, q, other, e, o, ht, -, hother, he, ho, hlegs, rfl⟩ := Ledger.addTransfer_eq_ok hadd
  obtain ⟨rfl, rfl⟩ := Prod.mk.inj hlegs
  have howner : e.transaction = some transaction := by rw [he]
  have howner' : o.transaction = some other.id := by rw [ho, hother]
  set l₂ : Ledger := { s.ledger with
    issued := s.ledger.issued + 3
    transactions := s.ledger.transactions.put other } with hl₂
  have hfacts : ∀ k, ((l₂.attach e).attach o).facts? k =
      if k = .entry o.id then some o.facts
      else if k = .entry e.id then some e.facts
      else if k = .transaction other.id then some other.facts else s.ledger.facts? k := by
    intro k
    rw [Ledger.facts?_attach _ howner', Ledger.facts?_attach _ howner, hl₂,
      Ledger.facts?_putTransaction { s.ledger with issued := s.ledger.issued + 3 }]
    cases k <;> rfl
  -- The journal takes the owner of the other leg from the ledger as it is by then.
  have hkeys : ((Ledger.entry? ((l₂.attach e).attach o) o.id).bind Entry.transaction).toList.map
      EntityKey.transaction ++ [EntityKey.entry e.id, EntityKey.entry o.id] =
        [.transaction other.id, .entry e.id, .entry o.id] := by
    rw [Ledger.entry?_attach, if_pos rfl, Option.bind_some, howner']
    rfl
  have hdistinct : o.id ≠ e.id := by simp [he, ho]
  have hstep : Step lapse key s ⟨(l₂.attach e).attach o,
      s.journal.addAll [.transaction other.id, .entry e.id, .entry o.id]⟩ := by
    refine step_addAll hs _ hchanged (by simp [hdistinct.symm]) (fun k hk => ?_) (fun k hk => ?_) key
    · simp only [List.mem_cons, List.not_mem_nil, or_false] at hk
      rcases hk with rfl | rfl | rfl
      · exact ⟨by simp [EntityKey.IsNew, hother], by simp [hfacts]⟩
      · exact ⟨by simp [EntityKey.IsNew, he], by simp [hfacts, hdistinct.symm]⟩
      · exact ⟨by simp [EntityKey.IsNew, ho], by simp [hfacts]⟩
    · simp only [List.mem_cons, List.not_mem_nil, or_false, not_or] at hk
      rw [hfacts, if_neg hk.2.2, if_neg hk.2.1, if_neg hk.1]
  rw [← hkeys] at hstep
  exact hstep

/-! ## Fields of one entity -/

/-- Nothing is noted where nothing that is followed changed. -/
theorem step_unnoted {l₁ : Ledger} (hchanged : s.ledger.Changed l₁)
    (h : ∀ k, l₁.facts? k = s.ledger.facts? k) (key : EntityKey) :
    Step lapse key s ⟨l₁, s.journal⟩ where
  changed := hchanged
  journal := .refl s.journal
  turn := .of_eq (h key) rfl

/--
A field of one entity that is set is noted with the value that it had, unless it was set to that
value: then the facts are the same, and a note would tell of a change that is none.
-/
theorem step_setField {l₁ : Ledger} {k : EntityKey} {facts next : List FieldValue} {value : FieldValue}
    {same : Prop} [Decidable same] (hchanged : s.ledger.Changed l₁)
    (hfacts : s.ledger.facts? k = some facts)
    (hnext : ∀ k', l₁.facts? k' = if k' = k then some next else s.ledger.facts? k')
    (hsame : same → next = facts) (hvalue : value ∈ facts)
    (hchange : ∀ x ∈ facts, x ∈ next ∨ x = value) (key : EntityKey) :
    Step lapse key s ⟨l₁, if same then s.journal else s.journal.change k value⟩ := by
  split
  · rename_i heq
    refine step_unnoted hchanged (fun k' => ?_) key
    rw [hnext, hsame heq, ← hfacts]
    split
    · rename_i hk'
      rw [hk']
    · rfl
  · refine ⟨hchanged, .change s.journal k value, ?_⟩
    have hrecord := Journal.record?_change s.journal k value key
    have hafter := hnext key
    by_cases hkey : key = k
    · subst hkey
      rw [if_pos rfl] at hrecord hafter
      exact .of_set hfacts hafter hrecord (Ledger.fields_of_facts? hafter) hvalue hchange
    · rw [if_neg hkey] at hrecord hafter
      exact .of_eq hafter hrecord

theorem step_setAccount {id : TransactionId} {account : AccountId}
    (h : s.setAccount id account = .ok s₁) (key : EntityKey) : Step lapse key s s₁ := by
  simp only [setAccount, bind_eq_ok_iff, pure_eq_ok_iff, Prod.exists] at h
  obtain ⟨previous, l₁, hset, rfl⟩ := h
  obtain ⟨t, ht, rfl, rfl⟩ := Ledger.setAccount_eq_ok hset
  obtain rfl : t.id = id := Ledger.id_of_transaction ht
  refine step_setField (.single (.reviseTransaction ht account t.date t.security t.memo))
    (Ledger.facts?_transaction ht) (s.ledger.facts?_putTransaction { t with account })
    (fun heq => by rw [← heq]) List.mem_cons_self (fun x hx => ?_) key
  rcases List.mem_cons.mp hx with rfl | hx
  · exact .inr rfl
  · exact .inl (List.mem_cons_of_mem _ hx)

theorem step_setCategory {id : EntryId} {category : Option CategoryId}
    (h : s.setCategory id category = .ok s₁) (key : EntityKey) : Step lapse key s s₁ := by
  simp only [setCategory, bind_eq_ok_iff, pure_eq_ok_iff, Prod.exists] at h
  obtain ⟨previous, l₁, hset, rfl⟩ := h
  have hchanged : s.ledger.Changed l₁ := .single (.setCategory hset)
  obtain ⟨-, e, he, rfl, rfl⟩ := Ledger.setCategory_eq_ok hset
  obtain rfl : e.id = id := Ledger.id_of_entry he
  refine step_setField hchanged (Ledger.facts?_entry he) (s.ledger.facts?_putEntry { e with category })
    (fun heq => by rw [← heq]) (by simp [Entry.facts]) (fun x hx => ?_) key
  simp only [Entry.facts, List.mem_cons, List.not_mem_nil, or_false] at hx ⊢
  tauto

/-! ## Fields of both legs of a transfer -/

section NoteLegs

variable {α : Type} (j : Journal) {id : EntryId} (before : α) {other : Option (EntryId × α)}
  (value : α → FieldValue)

/-- What a note about the entry itself leaves is not touched by the note about the other leg. -/
theorem record?_noteLegs_self (hne : ∀ o ∈ other, o.1 ≠ id) :
    (noteLegs j id before other value).record? (.entry id) =
      some (((j.record? (.entry id)).getD (.start (.entry id))).change (value before)) := by
  cases other with
  | none => rw [noteLegs, Journal.record?_change, if_pos rfl]
  | some o =>
    have hid : EntityKey.entry id ≠ .entry o.1 := fun h => hne o rfl (EntityKey.entry.inj h).symm
    simp only [noteLegs, Journal.record?_change, if_neg hid, if_pos]

theorem record?_noteLegs_other {o : EntryId × α} (hother : other = some o) (hne : o.1 ≠ id) :
    (noteLegs j id before other value).record? (.entry o.1) =
      some (((j.record? (.entry o.1)).getD (.start (.entry o.1))).change (value o.2)) := by
  subst hother
  have hid : EntityKey.entry o.1 ≠ .entry id := fun h => hne (EntityKey.entry.inj h)
  simp only [noteLegs, Journal.record?_change, if_neg hid, if_pos]

theorem record?_noteLegs_of_ne {key : EntityKey} (hkey : key ≠ .entry id)
    (hother : ∀ o ∈ other, key ≠ .entry o.1) :
    (noteLegs j id before other value).record? key = j.record? key := by
  cases other with
  | none => rw [noteLegs, Journal.record?_change, if_neg hkey]
  | some o => simp only [noteLegs, Journal.record?_change, if_neg hkey, if_neg (hother o rfl)]

end NoteLegs

/--
A field that is set in both legs of a transfer is noted for both, each with the value that it had.

Three kinds of keys are told apart: the entry itself, the leg that it is linked to, and everything
else. `Paired` is what keeps the first two apart, and what makes the leg that the ledger revises (by
the identity in `related`) the one that the journal notes (by the entry looked up under it).
-/
theorem step_reviseLegs (hs : s.ledger.Sound) {e : Entry} (he : s.ledger.entry? e.id = some e)
    {here there : Entry → Entry} {α : Type} (get : Entry → α) (value : α → FieldValue)
    (hchanged : s.ledger.Changed (s.ledger.reviseLegs e here there))
    (hhere : ∀ x, (here x).id = x.id ∧
      ∀ v ∈ x.facts, v ∈ (here x).facts ∨ v = value (get x))
    (hthere : ∀ x, (there x).id = x.id ∧
      ∀ v ∈ x.facts, v ∈ (there x).facts ∨ v = value (get x))
    (hvalue : ∀ x, value (get x) ∈ x.facts) (key : EntityKey) :
    Step lapse key s ⟨s.ledger.reviseLegs e here there,
      noteLegs s.journal e.id (get e) ((s.ledger.linkedLeg? e.id).map fun o => (o.id, get o)) value⟩ where
  changed := hchanged
  journal := .noteLegs ..
  turn := by
    have hne : e.related ≠ some e.id := hs.paired.related_ne he
    obtain ⟨hself, hother, hrest⟩ :=
      s.ledger.facts?_reviseLegs he hne (hhere e).1 fun o => (hthere o).1
    have hnoted : ∀ p ∈ (s.ledger.linkedLeg? e.id).map fun o => (o.id, get o),
        e.related = some p.1 := by
      rintro p hp
      obtain ⟨o, ho, rfl⟩ := Option.map_eq_some_iff.mp hp
      exact ((Ledger.linkedLeg?_eq_some he).mp ho).1
    by_cases hkey : key = .entry e.id
    · subst hkey
      refine .of_set (Ledger.facts?_entry he) hself
        (record?_noteLegs_self s.journal (get e) value fun p hp h => hne ?_)
        (Ledger.fields_of_facts? hself) (hvalue e) (hhere e).2
      rw [hnoted p hp, h]
    by_cases hlinked : ∃ other, e.related = some other ∧ key = .entry other
    · obtain ⟨other, hrel, rfl⟩ := hlinked
      obtain ⟨hapart, o, ho, -, -, -⟩ := hs.paired e.id e other he hrel
      obtain rfl : o.id = other := Ledger.id_of_entry ho
      have hleg : s.ledger.linkedLeg? e.id = some o := (Ledger.linkedLeg?_eq_some he).mpr ⟨hrel, ho⟩
      refine .of_set (Ledger.facts?_entry ho) (hother o ho hrel)
        (record?_noteLegs_other s.journal (get e) value (o := (o.id, get o)) ?_ hapart)
        (Ledger.fields_of_facts? (hother o ho hrel)) (hvalue o) (hthere o).2
      rw [hleg]
      rfl
    · exact .of_eq (hrest key hkey fun other hrel h => hlinked ⟨other, hrel, h⟩)
        (record?_noteLegs_of_ne s.journal (get e) value hkey
          fun p hp h => hlinked ⟨p.1, hnoted p hp, h⟩)

/--
Legs that are set to what they are stay as they are. Of the entry itself the session checks that; that
the other leg stays, too, holds because its quantities are the negated ones already.
-/
theorem step_reviseLegs_same (hs : s.ledger.Sound) {e : Entry} (he : s.ledger.entry? e.id = some e)
    {here there : Entry → Entry} (hchanged : s.ledger.Changed (s.ledger.reviseLegs e here there))
    (hhere : (here e).id = e.id ∧ (here e).facts = e.facts) (hthere : ∀ o, (there o).id = o.id)
    (hfacts : ∀ o, o.amount = e.amount.map (-·) → o.quantity = e.quantity.map (-·) →
      (there o).facts = o.facts) (key : EntityKey) :
    Step lapse key s ⟨s.ledger.reviseLegs e here there, s.journal⟩ := by
  refine step_unnoted hchanged (fun k => ?_) key
  obtain ⟨hself, hother, hrest⟩ :=
    s.ledger.facts?_reviseLegs he (hs.paired.related_ne he) hhere.1 hthere
  by_cases hk : k = .entry e.id
  · rw [hk, hself, hhere.2, Ledger.facts?_entry he]
  by_cases hlinked : ∃ other, e.related = some other ∧ k = .entry other
  · obtain ⟨other, hrel, rfl⟩ := hlinked
    obtain ⟨-, o, ho, -, hamount, hquantity⟩ := hs.paired e.id e other he hrel
    obtain rfl : o.id = other := Ledger.id_of_entry ho
    rw [hother o ho hrel, hfacts o hamount hquantity, Ledger.facts?_entry ho]
  · exact hrest k hk fun other hrel h => hlinked ⟨other, hrel, h⟩

/-- An amount that is set is noted for both legs, or for none if it was that amount before. -/
theorem step_setAmount (hs : s.ledger.Sound) {id : EntryId} {amount : Option Decimal}
    (h : s.setAmount id amount = .ok s₁) (key : EntityKey) : Step lapse key s s₁ := by
  simp only [setAmount, bind_eq_ok_iff, pure_eq_ok_iff, Prod.exists] at h
  obtain ⟨previous, l₁, hset, rfl⟩ := h
  have hchanged : s.ledger.Changed l₁ := .single (.setAmount hset)
  obtain ⟨e, he, rfl, rfl⟩ := Ledger.setAmount_eq_ok hset
  obtain rfl : e.id = id := Ledger.id_of_entry he
  split
  · rename_i heq
    refine step_reviseLegs_same hs he hchanged ⟨rfl, ?_⟩ (fun _ => rfl) ?_ key
    · rw [← heq]
    · intro o hamount _
      rw [← heq, ← hamount]
  · refine step_reviseLegs hs he Entry.amount .amount hchanged (fun x => ⟨rfl, ?_⟩)
      (fun x => ⟨rfl, ?_⟩) (fun x => by simp [Entry.facts]) key
    · intro v hv
      simp only [Entry.facts, List.mem_cons, List.not_mem_nil, or_false] at hv ⊢
      tauto
    · intro v hv
      simp only [Entry.facts, List.mem_cons, List.not_mem_nil, or_false] at hv ⊢
      tauto

/--
Shares that are set are noted for both legs, or for none. The session compares with the shares that
the entry has afterwards, since those are the rounded ones, and not with the shares that it was given.
-/
theorem step_setQuantity (hs : s.ledger.Sound) {id : EntryId} {quantity : Option Decimal}
    (h : s.setQuantity id quantity = .ok s₁) (key : EntityKey) : Step lapse key s s₁ := by
  simp only [setQuantity, bind_eq_ok_iff, pure_eq_ok_iff, Prod.exists] at h
  obtain ⟨previous, l₁, hset, rfl⟩ := h
  have hchanged : s.ledger.Changed l₁ := .single (.setQuantity hset)
  obtain ⟨e, he, rfl, rfl⟩ := Ledger.setQuantity_eq_ok hset
  obtain rfl : e.id = id := Ledger.id_of_entry he
  have hne : e.related ≠ some e.id := hs.paired.related_ne he
  have hstored : Ledger.entry? (s.ledger.reviseLegs e
      (fun e' => { e' with quantity := s.ledger.storedShares e quantity })
      fun o => { o with quantity := (s.ledger.storedShares e quantity).map (-·) }) e.id =
        some { e with quantity := s.ledger.storedShares e quantity } := by
    rw [Ledger.entry?_reviseLegs s.ledger he hne, he, Option.map_some, if_pos rfl]
    · rfl
    · exact fun _ => rfl
  rw [hstored]
  split
  · rename_i heq
    replace heq : e.quantity = s.ledger.storedShares e quantity := heq
    refine step_reviseLegs_same hs he hchanged ⟨rfl, ?_⟩ (fun _ => rfl) ?_ key
    · rw [← heq]
    · intro o _ hquantity
      rw [← heq, ← hquantity]
  · refine step_reviseLegs hs he Entry.quantity .quantity hchanged (fun x => ⟨rfl, ?_⟩)
      (fun x => ⟨rfl, ?_⟩) (fun x => by simp [Entry.facts]) key
    · intro v hv
      simp only [Entry.facts, List.mem_cons, List.not_mem_nil, or_false] at hv ⊢
      tauto
    · intro v hv
      simp only [Entry.facts, List.mem_cons, List.not_mem_nil, or_false] at hv ⊢
      tauto

/-! ## Dates, securities and splits

All of these derive the purchase-date shares of lots again, in a ledger whose transactions or splits
were changed before: `l₂` is the ledger in between, with the lots that it had.
-/

/--
Lots that were derived again are noted with the shares that they had. The adjusted shares stay as
they are, so the purchase-date shares are the one value that needs a note.
-/
theorem turn_noteLots {issued : Nat} {l₁ l₂ : Ledger} {j : Journal} {affected : LotKey → Bool}
    (hderived : l₂.Rederived affected l₁) (hlots : ∀ key, l₂.lot? key = s.ledger.lot? key)
    (hj : ∀ key, j.record? (.lot key) = s.journal.record? (.lot key)) (key : LotKey) :
    Turn lapse issued (.lot key) (s.sight (.lot key))
      (sight ⟨l₁, j.noteLots s.ledger l₁⟩ (.lot key)) := by
  obtain ⟨hnoted, hunnoted⟩ := Journal.record?_noteLots j s.ledger l₁
  obtain ⟨p, hp⟩ := hderived.lot?_eq key
  rw [hlots] at hp
  cases hlot : s.ledger.lot? key with
  | none =>
    rw [hlot, Option.map_none] at hp
    refine .of_eq ?_ ?_
    · rw [sight, sight, Ledger.facts?, Ledger.facts?, hp, hlot]
    · refine (hunnoted _ fun key' lot hlot' h => ?_).trans (hj key)
      obtain rfl := EntityKey.lot.inj h
      simp [hlot] at hlot'
  | some lot =>
    rw [hlot, Option.map_some] at hp
    have hrecord := hnoted key lot hlot
    obtain rfl : lot.key = key := Ledger.key_of_lot hlot
    rw [hj, Journal.lotNoted, hp] at hrecord
    dsimp only at hrecord
    have hfacts : s.ledger.facts? (.lot lot.key) = some lot.facts := Ledger.facts?_lot hlot
    have hnext : l₁.facts? (.lot lot.key) = some (Lot.facts { lot with purchaseShares := p }) :=
      Ledger.facts?_lot hp
    split at hrecord
    · rename_i heq
      refine .of_eq ?_ hrecord
      rw [sight, sight, hnext, hfacts, heq]
    · refine .of_set hfacts hnext hrecord rfl List.mem_cons_self fun x hx => ?_
      rcases List.mem_cons.mp hx with rfl | hx
      · exact .inr rfl
      · exact .inl (List.mem_cons_of_mem _ hx)

/-- Only lots are noted by noting lots. -/
theorem record?_noteLots_of_ne {j : Journal} {before after : Ledger} {key : EntityKey}
    (h : key.kind ≠ .lot) : (j.noteLots before after).record? key = j.record? key :=
  (Journal.record?_noteLots j before after).2 key fun _ _ _ hk => h (hk ▸ rfl)

/-- Only lots are derived again. -/
theorem facts?_rederived {l l₁ : Ledger} {affected : LotKey → Bool}
    (hderived : l.Rederived affected l₁) (key : EntityKey) (h : key.kind ≠ .lot) :
    l₁.facts? key = l.facts? key := by
  rw [hderived.same]
  cases key with
  | lot key => exact absurd rfl h
  | transaction i | entry i | category i | stockSplit i date | security i | account i => rfl

/--
A field that is set in many transactions is noted for each of them. The list of changes names every
transaction at most once, so no note finds the field written already (`Spread.nodup`).
-/
theorem step_spread {α : Type} {field : Ledger.TransactionField α} {goal : α} {l₁ l₂ : Ledger}
    {changes : Ledger.Changes α} {affected : LotKey → Bool}
    (hspread : Ledger.Spread field goal s.ledger l₂ changes)
    (hderived : l₂.Rederived affected l₁) (value : α → FieldValue)
    (hvalue : ∀ t, value (field.get t) ∈ t.facts)
    (hset : ∀ t, ∀ x ∈ t.facts, x ∈ (field.set t goal).facts ∨ x = value (field.get t))
    (key : EntityKey) :
    Step lapse key s ⟨l₁, (noteChanges s.journal changes value).noteLots s.ledger l₁⟩ where
  changed := hspread.changed.trans hderived.changed
  journal := (Journal.Extends.noteChanges ..).trans (.noteLots ..)
  turn := by
    obtain ⟨hunnoted, hnoted⟩ := Journal.record?_noteChanges value hspread.nodup s.journal
    cases key with
    | lot key =>
      refine turn_noteLots hderived (fun key => ?_) (fun key => hunnoted _ fun _ _ h => by cases h) key
      rw [hspread.same]
      rfl
    | transaction id =>
      have hfacts := facts?_rederived hderived (.transaction id) (fun h => by cases h)
      have hid := hspread.transaction?_eq id
      by_cases hmem : id ∈ changes.map Prod.fst
      · obtain ⟨c, hc, rfl⟩ := List.mem_map.mp hmem
        obtain ⟨t, ht, hget, -⟩ := hspread.listed c hc
        rw [if_pos hmem, ht, Option.map_some] at hid
        have hrecord := hnoted c hc
        rw [← hget] at hrecord
        exact .of_set (Ledger.facts?_transaction ht) (hfacts.trans (Ledger.facts?_transaction hid))
          ((record?_noteLots_of_ne fun h => by cases h).trans hrecord) rfl (hvalue t) (hset t)
      · -- A transaction that the list leaves out had the value before, or was not reached.
        rw [if_neg hmem] at hid
        refine .of_eq ?_ ((record?_noteLots_of_ne fun h => by cases h).trans
          (hunnoted _ fun c hc h => ?_))
        · rw [sight, sight, hfacts, Ledger.facts?, Ledger.facts?, hid]
        · obtain rfl := EntityKey.transaction.inj h
          exact hmem (List.mem_map.mpr ⟨c, hc, rfl⟩)
    | entry i | category i | stockSplit i date | security i | account i =>
      refine .of_eq ?_ ((record?_noteLots_of_ne fun h => by cases h).trans
        (hunnoted _ fun _ _ h => by cases h))
      rw [sight, sight, facts?_rederived hderived _ (fun h => by cases h), hspread.same]
      rfl

/-- Setting a date notes every transaction that it reaches, with the date that it had. -/
theorem step_setDate {id : TransactionId} {date : Date} (h : s.setDate id date = .ok s₁)
    (key : EntityKey) : Step lapse key s s₁ := by
  simp only [setDate, bind_eq_ok_iff, pure_eq_ok_iff, Prod.exists] at h
  obtain ⟨changes, l₁, hset, rfl⟩ := h
  obtain ⟨l₂, -, hspread, hderived⟩ := Ledger.setDate_eq_ok hset
  refine step_spread hspread hderived .date (fun t => by simp [Transaction.facts, Ledger.dateField])
    (fun t x hx => ?_) key
  simp only [Transaction.facts, Ledger.dateField, List.mem_cons, List.not_mem_nil, or_false] at hx ⊢
  tauto

/-- Setting a security notes every transaction that it reaches, with the security that it had. -/
theorem step_setSecurity {id : TransactionId} {security : Option SecurityId}
    (h : s.setSecurity id security = .ok s₁) (key : EntityKey) : Step lapse key s s₁ := by
  simp only [setSecurity, bind_eq_ok_iff, pure_eq_ok_iff, Prod.exists] at h
  obtain ⟨changes, l₁, hset, rfl⟩ := h
  obtain ⟨l₂, -, hspread, hderived⟩ := Ledger.setSecurity_eq_ok hset
  refine step_spread hspread hderived .security
    (fun t => by simp [Transaction.facts, Ledger.securityField]) (fun t x hx => ?_) key
  simp only [Transaction.facts, Ledger.securityField, List.mem_cons, List.not_mem_nil, or_false]
    at hx ⊢
  tauto

/--
A split is noted under its security and its date, which had none: where there is one already, the
edit is refused (`hnone`). Lots that it makes smaller or larger as of their purchase are noted after it.
-/
theorem step_addSplit {id : SecurityId} {split : StockSplit} (h : s.addSplit id split = .ok s₁)
    (key : EntityKey) : Step lapse key s s₁ := by
  simp only [addSplit, bind_eq_ok_iff, pure_eq_ok_iff] at h
  obtain ⟨l₁, hadd, rfl⟩ := h
  obtain ⟨sec, _, hsec, hnone, rfl, hderived⟩ := Ledger.addSplit_eq_ok hadd
  set history : SplitHistory := { sec.history with splits := sec.history.splits.put split }
  have hfacts := s.ledger.facts?_withHistory hsec history
  have hon : ∀ date, history.on? date = if date = split.date then some split
      else sec.history.on? date := Register.get?_put split sec.history.splits
  have hrecord := Journal.record?_add s.journal (.stockSplit id split.date)
  refine ⟨hderived.changed.head (.setHistory hsec _), (Journal.Extends.add ..).trans (.noteLots ..), ?_⟩
  cases key with
  | lot key =>
    refine turn_noteLots hderived (fun _ => rfl) (fun key => ?_) key
    rw [hrecord, if_neg (by simp)]
  | stockSplit i date =>
    have hl₁ := facts?_rederived hderived (.stockSplit i date) (fun h => by cases h)
    rw [hfacts] at hl₁
    dsimp only at hl₁
    have hbefore : s.ledger.facts? (.stockSplit id date) =
        (sec.history.on? date).map StockSplit.facts := by
      rw [Ledger.facts?, hsec]
      rfl
    by_cases hkey : EntityKey.stockSplit i date = .stockSplit id split.date
    · obtain ⟨rfl, rfl⟩ := EntityKey.stockSplit.inj hkey
      rw [if_pos rfl, hon, if_pos rfl] at hl₁
      rw [hnone] at hbefore
      refine .of_added hbefore hl₁ ?_ rfl (.inl trivial)
      refine (record?_noteLots_of_ne (fun h => by cases h)).trans ?_
      rw [hrecord, if_pos rfl]
      rfl
    · refine .of_eq ?_ ?_
      · rw [sight, sight, hl₁]
        split
        · rename_i hi
          subst hi
          have hdate : date ≠ split.date := fun h => hkey (by rw [h])
          rw [hon, if_neg hdate]
          exact hbefore.symm
        · rfl
      · refine (record?_noteLots_of_ne (fun h => by cases h)).trans ?_
        rw [hrecord, if_neg hkey]
        rfl
  | transaction i | entry i | category i | security i | account i =>
    refine .of_eq ?_ ?_
    · rw [sight, sight, facts?_rederived hderived _ (fun h => by cases h), hfacts]
    · refine (record?_noteLots_of_ne (fun h => by cases h)).trans ?_
      rw [hrecord, if_neg (by simp)]
      rfl

/--
A split that is taken out is noted with its ratio, after the lots. Where there is none on the date,
nothing happens, which is a step as well.
-/
theorem step_deleteSplit {id : SecurityId} {date : Date} {found : Bool}
    (h : s.deleteSplit id date = .ok (found, s₁)) (key : EntityKey) : Step lapse key s s₁ := by
  simp only [deleteSplit, bind_eq_ok_iff, Prod.exists] at h
  obtain ⟨removed, l₁, hremove, h⟩ := h
  obtain ⟨sec, hsec, hremoved, hcases⟩ := Ledger.removeSplit_eq_ok hremove
  cases removed with
  | none =>
    obtain ⟨rfl, rfl⟩ := Prod.mk.inj (pure_eq_ok_iff.mp h)
    exact step_unnoted .refl (fun _ => rfl) key
  | some split =>
    obtain ⟨rfl, rfl⟩ := Prod.mk.inj (pure_eq_ok_iff.mp h)
    obtain ⟨hnone, -⟩ | ⟨-, _, rfl, hderived⟩ := hcases
    · cases hnone
    obtain rfl : split.date = date := Register.key_of_get? hremoved.symm
    have hfacts := s.ledger.facts?_withHistory hsec (sec.history.remove split.date)
    have hon : ∀ d, (sec.history.remove split.date).on? d =
        if d = split.date then none else sec.history.on? d :=
      Register.get?_erase sec.history.splits split.date
    have hrecord := Journal.record?_remove (s.journal.noteLots s.ledger l₁) (.stockSplit id split)
    refine ⟨hderived.changed.head (.setHistory hsec _),
      (Journal.Extends.noteLots ..).trans (.remove ..), ?_⟩
    cases key with
    | lot key =>
      -- The note about the split comes last and leaves the records of lots alone.
      have hturn : Turn lapse s.ledger.issued (.lot key) (s.sight (.lot key))
          (sight ⟨l₁, s.journal.noteLots s.ledger l₁⟩ (.lot key)) :=
        turn_noteLots hderived (fun _ => rfl) (fun _ => rfl) key
      have hlot := (hrecord (.lot key)).trans (if_neg fun h => by cases h)
      rw [sight] at hturn ⊢
      rwa [sight, hlot]
    | stockSplit i d =>
      have hl₁ := facts?_rederived hderived (.stockSplit i d) (fun h => by cases h)
      rw [hfacts] at hl₁
      dsimp only at hl₁
      by_cases hkey : EntityKey.stockSplit i d = .stockSplit id split.date
      · obtain ⟨rfl, rfl⟩ := EntityKey.stockSplit.inj hkey
        rw [if_pos rfl, hon, if_pos rfl] at hl₁
        refine .of_removed (.stockSplit i split) rfl (fun h => by cases h) ?_ hl₁ ?_
        · rw [sight, Ledger.facts?, hsec, Option.bind_some, ← hremoved]
          rfl
        · refine (hrecord _).trans ((if_pos rfl).trans ?_)
          rw [record?_noteLots_of_ne (fun h => by cases h)]
          rfl
      · refine .of_eq ?_ ?_
        · rw [sight, sight, hl₁]
          split
          · rename_i hi
            subst hi
            have hd : d ≠ split.date := fun h => hkey (by rw [h])
            rw [hon, if_neg hd, Ledger.facts?, hsec]
            rfl
          · rfl
        · exact ((hrecord _).trans (if_neg hkey)).trans (record?_noteLots_of_ne (fun h => by cases h))
    | transaction i | entry i | category i | security i | account i =>
      refine .of_eq ?_ ?_
      · rw [sight, sight, facts?_rederived hderived _ (fun h => by cases h), hfacts]
      · exact ((hrecord _).trans (if_neg fun h => by cases h)).trans
          (record?_noteLots_of_ne fun h => by cases h)

end Session

end Lotbook
