/-
# Lotbook.Proofs.Changes -- the elementary changes of a ledger

Whatever is done to a ledger, directly or in a session, comes down to a few elementary changes
(`Ledger.Change`): adding an entity, revising a transaction or an entry, removing an entry or a
transaction without entries, and making, resizing or dropping a lot. An invariant is checked once for
each of them. What an operation comes to is read off here once, and cited from then on.
-/
import Lotbook.Proofs.Edits
import Lotbook.Proofs.Registers

namespace Lotbook.Ledger

/-- The ledger with another history of splits for one of its securities. -/
def withHistory (l : Ledger) (s : Security) (history : SplitHistory) : Ledger :=
  { l with securities := l.securities.put { s with history } }

/--
An elementary change of a ledger. Where an operation writes several entities together (both legs of
a transfer, an entry with what points to it), the constructor holds the successful call and not the
writes, because the ledger between two of those writes breaks the invariants that the call keeps.
-/
inductive Change : Ledger → Ledger → Prop
  | addSecurity (l : Ledger) (name : String) : Change l (l.addSecurity name).2
  | addCategory (l : Ledger) (code : String) (affectsBalance : Bool)
      (action : Option SecurityAction) : Change l (l.addCategory code affectsBalance action).2
  | setHistory {l : Ledger} {id : SecurityId} {s : Security} (h : l.security? id = some s)
      (history : SplitHistory) : Change l (l.withHistory s history)
  | addTransaction (l : Ledger) (account : AccountId) (date : Date) (security : Option SecurityId) :
      Change l (l.addTransaction account date security).2
  -- The four fields that can be set are free at once: nothing that single changes keep ties them to
  -- one another, or to another transaction.
  | reviseTransaction {l : Ledger} {id : TransactionId} {t : Transaction}
      (h : l.transaction? id = some t) (account : AccountId) (date : Date)
      (security : Option SecurityId) (memo : Option String) :
      Change l { l with transactions := l.transactions.put { t with account, date, security, memo } }
  -- Only a transaction that no entry names may go, or an entry would be left without its owner.
  | dropTransaction {l : Ledger} {id : TransactionId}
      (h : ∀ entry e, l.entry? entry = some e → e.transaction ≠ some id) :
      Change l { l with transactions := l.transactions.erase id }
  | addEntry {l l₁ : Ledger} {transaction : TransactionId} {amount quantity : Option Decimal}
      {category : Option CategoryId} {id : EntryId}
      (h : l.addEntry transaction amount quantity category = .ok (id, l₁)) : Change l l₁
  | addTransfer {l l₁ : Ledger} {transaction : TransactionId} {otherAccount : AccountId}
      {amount quantity : Option Decimal} {legs : EntryId × EntryId}
      (h : l.addTransfer transaction otherAccount amount quantity = .ok (legs, l₁)) : Change l l₁
  | setAmount {l l₁ : Ledger} {id : EntryId} {amount previous : Option Decimal}
      (h : l.setAmount id amount = .ok (previous, l₁)) : Change l l₁
  | setQuantity {l l₁ : Ledger} {id : EntryId} {quantity previous : Option Decimal}
      (h : l.setQuantity id quantity = .ok (previous, l₁)) : Change l l₁
  | setCategory {l l₁ : Ledger} {id : EntryId} {category previous : Option CategoryId}
      (h : l.setCategory id category = .ok (previous, l₁)) : Change l l₁
  | setEntryMemo {l l₁ : Ledger} {id : EntryId} {memo previous : Option String}
      (h : l.setEntryMemo id memo = .ok (previous, l₁)) : Change l l₁
  | removeEntry {l l₁ : Ledger} {id : EntryId} {e : Entry}
      (h : l.removeEntry id = .ok (e, l₁)) : Change l l₁
  | insertLot {l l₁ : Ledger} {key : LotKey} (h : l.insertLot key = .ok l₁) : Change l l₁
  -- Any shares are admitted: which of them a lot may have is the subject of later modules.
  | resizeLot {l : Ledger} {lot : Lot} (h : l.lot? lot.key = some lot)
      (purchaseShares adjustedShares : Decimal) :
      Change l { l with lots := l.lots.put { lot with purchaseShares, adjustedShares } }
  | dropLot (l : Ledger) (key : LotKey) : Change l { l with lots := l.lots.erase key }

/-- Elementary changes, one after the other. -/
abbrev Changed : Ledger → Ledger → Prop := Relation.ReflTransGen Change

/-! ## Look-ups in a changed ledger

One equation for each write and each kind of entity that it touches, so that no proof below opens a
register. A look-up of another kind is the same by definition.
-/

section LookUps

variable (l : Ledger)

theorem transaction?_put (t : Transaction) (id : TransactionId) :
    { l with transactions := l.transactions.put t }.transaction? id =
      if id = t.id then some t else l.transaction? id :=
  Register.get?_put t l.transactions id

/-- A new security has the places for shares that the settings ask for, and no split yet. -/
theorem security?_addSecurity (name : String) (id : SecurityId) :
    (l.addSecurity name).2.security? id =
      if id = ⟨l.issued + 1⟩ then
        some ⟨⟨l.issued + 1⟩, name, l.settings.sharePlaces, .new ⟨l.issued + 1⟩⟩
      else l.security? id :=
  Register.get?_put _ l.securities id

theorem security?_withHistory (s : Security) (history : SplitHistory) (id : SecurityId) :
    (l.withHistory s history).security? id =
      if id = s.id then some { s with history } else l.security? id :=
  Register.get?_put _ l.securities id

theorem category?_addCategory (code : String) (affectsBalance : Bool) (action : Option SecurityAction)
    (id : CategoryId) :
    (l.addCategory code affectsBalance action).2.category? id =
      if id = ⟨l.issued + 1⟩ then some ⟨⟨l.issued + 1⟩, code, affectsBalance, action⟩
      else l.category? id :=
  Register.get?_put _ l.categories id

theorem transaction?_addTransaction (account : AccountId) (date : Date) (security : Option SecurityId)
    (id : TransactionId) :
    (l.addTransaction account date security).2.transaction? id =
      if id = ⟨l.issued + 1⟩ then some ⟨⟨l.issued + 1⟩, account, date, security, none, []⟩
      else l.transaction? id :=
  Register.get?_put _ l.transactions id

theorem entry?_put (e : Entry) (id : EntryId) :
    entry? { l with entries := l.entries.put e } id = if id = e.id then some e else l.entry? id :=
  Register.get?_put e l.entries id

theorem entry?_attach (e : Entry) (id : EntryId) :
    entry? (l.attach e) id = if id = e.id then some e else l.entry? id :=
  Register.get?_put e l.entries id

/-- Attaching an entry issues no identity: the caller has issued it before. -/
@[simp] theorem issued_attach (e : Entry) : (l.attach e).issued = l.issued := rfl

/-- An entry is attached behind the entries that its transaction has. -/
theorem transaction?_attach {e : Entry} {owner : TransactionId} (h : e.transaction = some owner)
    (id : TransactionId) :
    (l.attach e).transaction? id =
      if id = owner then (l.transaction? id).map fun t => { t with details := t.details ++ [e.id] }
      else l.transaction? id := by
  have := Register.get?_modify (f := fun t : Transaction => { t with details := t.details ++ [e.id] })
    (fun _ => rfl) l.transactions owner id
  simp only [attach, h]
  exact this

/-- Revising the legs of a transfer touches nothing but entries. -/
theorem reviseLegs_eq (e : Entry) (here there : Entry → Entry) :
    l.reviseLegs e here there = { l with entries := (l.reviseLegs e here there).entries } := by
  rw [reviseLegs]
  split <;> rfl

/--
Revising the legs of a transfer revises the entry and the one that it is linked to. An entry linked
to itself would be revised twice, which `hne` excludes; `Paired` excludes it in every ledger there is.
-/
theorem entry?_reviseLegs {e : Entry} {here there : Entry → Entry} (he : l.entry? e.id = some e)
    (hne : e.related ≠ some e.id) (hhere : (here e).id = e.id) (hthere : ∀ o, (there o).id = o.id)
    (id : EntryId) :
    entry? (l.reviseLegs e here there) id = (l.entry? id).map fun x =>
      if id = e.id then here x else if e.related = some id then there x else x := by
  have hput : (l.entries.put (here e)).get? id = if id = e.id then some (here e) else l.entry? id := by
    rw [← hhere]
    exact Register.get?_put (here e) l.entries id
  cases hrelated : e.related with
  | none =>
    simp only [reviseLegs, hrelated, entry?, hput, reduceCtorEq, if_false]
    split
    · rename_i hid
      simp only [hid]
      rw [show l.entries.get? e.id = some e from he]
      rfl
    · exact Option.map_id'.symm
  | some other =>
    have hmodify := Register.get?_modify (f := there) hthere (l.entries.put (here e)) other id
    simp only [reviseLegs, hrelated, entry?, hmodify, hput]
    -- The other leg is written second, on top of the entry itself.
    by_cases hid : id = e.id
    · have hother : id ≠ other := fun h => hne (by rw [hrelated, ← h, hid])
      rw [if_neg hother, if_pos hid, hid]
      simp only [if_true]
      rw [show l.entries.get? e.id = some e from he]
      rfl
    · by_cases hother : id = other
      · simp only [hother, if_true]
        rw [hother] at hid
        simp only [hid, if_false]
      · simp only [hid, hother, if_false, Option.some.injEq, Ne.symm hother]
        exact Option.map_id'.symm

theorem lot?_put (lot : Lot) (key : LotKey) :
    { l with lots := l.lots.put lot }.lot? key = if key = lot.key then some lot else l.lot? key :=
  Register.get?_put lot l.lots key

theorem transaction?_erase (l : Ledger) (id i : TransactionId) :
    { l with transactions := l.transactions.erase id }.transaction? i =
      if i = id then none else l.transaction? i :=
  Register.get?_erase l.transactions id i

theorem lot?_erase (j key : LotKey) :
    { l with lots := l.lots.erase j }.lot? key = if key = j then none else l.lot? key :=
  Register.get?_erase l.lots j key

variable {l}

theorem id_of_transaction {id : TransactionId} {t : Transaction} (h : l.transaction? id = some t) :
    t.id = id := Register.key_of_get? h

theorem id_of_entry {id : EntryId} {e : Entry} (h : l.entry? id = some e) : e.id = id :=
  Register.key_of_get? h

theorem otherLeg?_eq_some {id other : EntryId} :
    l.otherLeg? id = some other ↔ ∃ e, l.entry? id = some e ∧ e.related = some other :=
  Option.bind_eq_some_iff

theorem otherLeg?_of_entry {id : EntryId} {e : Entry} (h : l.entry? id = some e) :
    l.otherLeg? id = e.related := by
  rw [otherLeg?, h]
  rfl

theorem linkedLeg?_eq_some {id : EntryId} {e o : Entry} (h : l.entry? id = some e) :
    l.linkedLeg? id = some o ↔ e.related = some o.id ∧ l.entry? o.id = some o := by
  rw [linkedLeg?, otherLeg?_of_entry h, Option.bind_eq_some_iff]
  constructor
  · rintro ⟨other, hrel, ho⟩
    obtain rfl : o.id = other := Register.key_of_get? ho
    exact ⟨hrel, ho⟩
  · rintro ⟨hrel, ho⟩
    exact ⟨o.id, hrel, ho⟩

theorem id_of_security {id : SecurityId} {s : Security} (h : l.security? id = some s) : s.id = id :=
  Register.key_of_get? h

theorem mem_lotsTouching_iff {id : EntryId} {key : LotKey} :
    key ∈ l.lotsTouching id ↔ (∃ lot, l.lot? key = some lot) ∧ (key.purchase = id ∨ key.sale = id) := by
  simp [lotsTouching, Register.mem_keys_iff, lot?]

theorem key_of_lot {key : LotKey} {lot : Lot} (h : l.lot? key = some lot) : lot.key = key :=
  Register.key_of_get? h

/-- After an entry was replaced, every entry is one from before or the new one in its place. -/
theorem of_entry?_put {i id : EntryId} {e x e₁ : Entry} (he : l.entry? i = some e)
    (he₁ : entry? { l with entries := l.entries.put x } id = some e₁) (hid : x.id = e.id) :
    l.entry? id = some e₁ ∨ l.entry? id = some e ∧ e₁ = x := by
  obtain rfl : e.id = i := id_of_entry he
  rw [entry?_put, hid] at he₁
  split at he₁
  · rename_i heq
    exact .inr ⟨heq ▸ he, (Option.some.inj he₁).symm⟩
  · exact .inl he₁

end LookUps

/-! ## What each operation comes to

Each `…_eq_ok` inverts a call that went well: the look-ups that it made, what it gives back (mostly
the previous value, which the journal keeps), and the ledger that it leaves. From here on a proof
about an operation cites the inversion and does not unfold the operation.
-/

section Specs

variable {l l₁ : Ledger}

/-- Moving a transaction to another account moves that one only, not the one that it is linked to. -/
theorem setAccount_eq_ok {id : TransactionId} {account previous : AccountId}
    (h : l.setAccount id account = .ok (previous, l₁)) :
    ∃ t, l.transaction? id = some t ∧ previous = t.account ∧
      l₁ = { l with transactions := l.transactions.put { t with account } } := by
  simp only [setAccount, bind_eq_ok_iff, orError_eq_ok_iff, pure_eq_ok_iff] at h
  obtain ⟨t, ht, h⟩ := h
  obtain ⟨rfl, rfl⟩ := Prod.mk.inj h
  exact ⟨t, ht, rfl, rfl⟩

theorem setTransactionMemo_eq_ok {id : TransactionId} {memo previous : Option String}
    (h : l.setTransactionMemo id memo = .ok (previous, l₁)) :
    ∃ t, l.transaction? id = some t ∧
      l₁ = { l with transactions := l.transactions.put { t with memo } } := by
  simp only [setTransactionMemo, bind_eq_ok_iff, orError_eq_ok_iff, pure_eq_ok_iff] at h
  obtain ⟨t, ht, h⟩ := h
  exact ⟨t, ht, (Prod.mk.inj h).2.symm⟩

/--
An entry goes to a transaction that exists, in a category that exists if it has one. Its shares are
rounded to the places of the security that the transaction is about.
-/
theorem addEntry_eq_ok {transaction : TransactionId} {amount quantity : Option Decimal}
    {category : Option CategoryId} {id : EntryId}
    (h : l.addEntry transaction amount quantity category = .ok (id, l₁)) :
    (∃ t, l.transaction? transaction = some t) ∧
      (∀ c, category = some c → ∃ x, l.category? c = some x) ∧
      id = ⟨l.issued + 1⟩ ∧
      l₁ = { l with issued := l.issued + 1 }.attach
        { id, transaction := some transaction, amount, quantity := l.roundShares transaction quantity,
          category, related := none, memo := none } := by
  cases ht : l.transaction? transaction with
  | none => simp [addEntry, ht, bind, Except.bind, throw, throwThe, MonadExceptOf.throw] at h
  | some t =>
    cases category with
    | none =>
      simp only [addEntry, ht, issue, Option.isNone_some, Bool.false_eq_true, if_false,
        pure_eq_ok_iff, Prod.mk.injEq] at h
      obtain ⟨rfl, rfl⟩ := h
      exact ⟨⟨t, rfl⟩, (fun _ h => by cases h), rfl, rfl⟩
    | some c =>
      cases hc : l.category? c with
      | none => simp [addEntry, ht, hc, bind, Except.bind, throw, throwThe, MonadExceptOf.throw] at h
      | some x =>
        simp only [addEntry, ht, hc, issue, Option.isNone_some, Bool.false_eq_true, if_false,
          pure_eq_ok_iff, Prod.mk.injEq] at h
        obtain ⟨rfl, rfl⟩ := h
        exact ⟨⟨t, rfl⟩, fun _ hc' => Option.some.inj hc' ▸ ⟨x, hc⟩, rfl, rfl⟩

/--
A transfer adds three things: the transaction of the other side, which takes over the date, and the
security only if shares are moved; the leg here; and the leg there, with both quantities negated.
Their identities are issued in this order.
-/
theorem addTransfer_eq_ok {transaction : TransactionId} {otherAccount : AccountId}
    {amount quantity : Option Decimal} {legs : EntryId × EntryId}
    (h : l.addTransfer transaction otherAccount amount quantity = .ok (legs, l₁)) :
    ∃ t q other e o, l.transaction? transaction = some t ∧ q = l.roundShares transaction quantity ∧
      other = (⟨⟨l.issued + 1⟩, otherAccount, t.date, q.bind fun _ => t.security, none, []⟩ :
        Transaction) ∧
      e = (⟨⟨l.issued + 2⟩, some transaction, amount, q, none, some ⟨l.issued + 3⟩, none⟩ : Entry) ∧
      o = (⟨⟨l.issued + 3⟩, some ⟨l.issued + 1⟩, amount.map (-·), q.map (-·), none,
        some ⟨l.issued + 2⟩, none⟩ : Entry) ∧
      legs = (e.id, o.id) ∧
      l₁ = (attach { l with issued := l.issued + 3, transactions := l.transactions.put other }
        e).attach o := by
  simp only [addTransfer, issue, bind_eq_ok_iff, orError_eq_ok_iff, pure_eq_ok_iff] at h
  obtain ⟨t, ht, h⟩ := h
  obtain ⟨rfl, rfl⟩ := Prod.mk.inj h
  exact ⟨t, _, _, _, _, ht, rfl, rfl, rfl, rfl, rfl, rfl⟩

/-- The amount is set on an entry and, negated, on the other leg of its transfer. -/
theorem setAmount_eq_ok {id : EntryId} {amount previous : Option Decimal}
    (h : l.setAmount id amount = .ok (previous, l₁)) :
    ∃ e, l.entry? id = some e ∧ previous = e.amount ∧
      l₁ = l.reviseLegs e (fun e => { e with amount })
        fun o => { o with amount := amount.map (-·) } := by
  simp only [setAmount, bind_eq_ok_iff, orError_eq_ok_iff, pure_eq_ok_iff] at h
  obtain ⟨e, he, h⟩ := h
  obtain ⟨rfl, rfl⟩ := Prod.mk.inj h
  exact ⟨e, he, rfl, rfl⟩

/-- The shares that an entry gets when they are set: rounded, as long as it has an owner. -/
def storedShares (l : Ledger) (e : Entry) (quantity : Option Decimal) : Option Decimal :=
  match e.transaction with
  | some owner => l.roundShares owner quantity
  | none => quantity

/--
The shares are set on an entry and, negated, on the other leg. They are rounded once, with the places
of the entry's own security: those of the other leg's transaction are not asked for.
-/
theorem setQuantity_eq_ok {id : EntryId} {quantity previous : Option Decimal}
    (h : l.setQuantity id quantity = .ok (previous, l₁)) :
    ∃ e, l.entry? id = some e ∧ previous = e.quantity ∧
      l₁ = l.reviseLegs e (fun e' => { e' with quantity := l.storedShares e quantity })
        fun o => { o with quantity := (l.storedShares e quantity).map (-·) } := by
  simp only [setQuantity, bind_eq_ok_iff, orError_eq_ok_iff, pure_eq_ok_iff] at h
  obtain ⟨e, he, h⟩ := h
  obtain ⟨rfl, rfl⟩ := Prod.mk.inj h
  exact ⟨e, he, rfl, rfl⟩

/-- A category that is set exists; the other leg of a transfer keeps its own. -/
theorem setCategory_eq_ok {id : EntryId} {category previous : Option CategoryId}
    (h : l.setCategory id category = .ok (previous, l₁)) :
    (∀ c, category = some c → ∃ x, l.category? c = some x) ∧
      ∃ e, l.entry? id = some e ∧ previous = e.category ∧
        l₁ = { l with entries := l.entries.put { e with category } } := by
  cases category with
  | none =>
    simp only [setCategory, bind_eq_ok_iff, orError_eq_ok_iff, pure_eq_ok_iff] at h
    obtain ⟨e, he, h⟩ := h
    obtain ⟨rfl, rfl⟩ := Prod.mk.inj h
    exact ⟨(fun _ h => by cases h), e, he, rfl, rfl⟩
  | some c =>
    cases hc : l.category? c with
    | none => simp [setCategory, hc, bind, Except.bind, throw, throwThe, MonadExceptOf.throw] at h
    | some x =>
      simp only [setCategory, hc, Option.isNone_some, Bool.false_eq_true, if_false, bind_eq_ok_iff,
        orError_eq_ok_iff, pure_eq_ok_iff] at h
      obtain ⟨e, he, h⟩ := h
      obtain ⟨rfl, rfl⟩ := Prod.mk.inj h
      exact ⟨fun _ hc' => Option.some.inj hc' ▸ ⟨x, hc⟩, e, he, rfl, rfl⟩

/-- A memo belongs to one leg of a transfer, too. -/
theorem setEntryMemo_eq_ok {id : EntryId} {memo previous : Option String}
    (h : l.setEntryMemo id memo = .ok (previous, l₁)) :
    ∃ e, l.entry? id = some e ∧ l₁ = { l with entries := l.entries.put { e with memo } } := by
  simp only [setEntryMemo, bind_eq_ok_iff, orError_eq_ok_iff, pure_eq_ok_iff] at h
  obtain ⟨e, he, h⟩ := h
  exact ⟨e, he, (Prod.mk.inj h).2.symm⟩

/-- The transaction after an entry was taken off it. -/
def withoutDetail (t : Transaction) (id : EntryId) : Transaction :=
  { t with details := t.details.filter (· ≠ id) }

/-- The entry after the other leg of its transfer was removed. -/
def unlinked (o : Entry) (id : EntryId) : Entry :=
  if o.related = some id then { o with related := none } else o

/--
Removing an entry takes it off its transaction, its identity off the other leg, and every lot that it
has a part in off the ledger. The ledger is given by its look-ups, because the three registers are
written one after the other and only what they hold in the end is of interest.
-/
theorem removeEntry_eq_ok {id : EntryId} {removed : Entry}
    (h : l.removeEntry id = .ok (removed, l₁)) :
    ∃ e, l.entry? id = some e ∧ removed = { e with transaction := none } ∧
      (∀ t, l₁.transaction? t =
        if e.transaction = some t then (l.transaction? t).map (withoutDetail · id)
        else l.transaction? t) ∧
      (∀ i, l₁.entry? i =
        if i = id then none
        else if e.related = some i then (l.entry? i).map (unlinked · id) else l.entry? i) ∧
      (∀ key, l₁.lot? key = if key.purchase = id ∨ key.sale = id then none else l.lot? key) ∧
      l₁ = { l with transactions := l₁.transactions, entries := l₁.entries, lots := l₁.lots } := by
  simp only [removeEntry, bind_eq_ok_iff, orError_eq_ok_iff, pure_eq_ok_iff] at h
  obtain ⟨e, he, h⟩ := h
  obtain ⟨rfl, rfl⟩ := Prod.mk.inj h
  refine ⟨e, he, rfl, fun t => ?_, fun i => ?_, fun key => ?_, rfl⟩
  · cases howner : e.transaction with
    | none => rfl
    | some owner =>
      have := Register.get?_modify (f := fun t => withoutDetail t id) (fun _ => rfl) l.transactions
        owner t
      simp only [Option.some.injEq, eq_comm (a := owner)]
      exact this
  · -- The entry is erased before the other leg is looked up, so an entry linked to itself is gone.
    cases hother : e.related with
    | none =>
      simp only [reduceCtorEq, if_false]
      exact Register.get?_erase l.entries id i
    | some other =>
      have hkey : ∀ o : Entry, Keyed.key (unlinked o id) = Keyed.key o := fun o => by
        rw [unlinked]
        split <;> rfl
      have := Register.get?_modify hkey (l.entries.erase id) other i
      rw [Register.get?_erase] at this
      simp only [Option.some.injEq, eq_comm (a := other)]
      refine this.trans ?_
      by_cases hi : i = id <;> simp [hi, entry?]
  · -- The keys to erase are read off the lots themselves: a key that is not among them has no lot.
    refine (Register.get?_foldl_erase _ l.lots key).trans ?_
    by_cases hkey : key.purchase = id ∨ key.sale = id
    · simp only [hkey, if_true]
      split
      · rfl
      · rename_i hnot
        cases hlot : l.lots.get? key with
        | none => rfl
        | some lot =>
          exact absurd (mem_lotsTouching_iff.mpr ⟨⟨lot, hlot⟩, hkey⟩) hnot
    · rw [if_neg hkey, if_neg fun h => hkey (mem_lotsTouching_iff.mp h).2]
      rfl

end Specs

end Lotbook.Ledger
