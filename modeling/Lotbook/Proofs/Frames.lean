/-
# Lotbook.Proofs.Frames -- what operations leave as it is

A transaction keeps its date unless a date is set, and its security unless a security is set
(`Ledger.Operation.transaction?`); an entry never goes over to another transaction, and is never linked
to another entry than the one that it was made with (`Ledger.Operation.entry?`). What the two ends of a
transfer have in common can therefore only be lost by an operation that sets it
(`Ledger.Operation.ends?`).
-/
import Lotbook.Proofs.Operations

namespace Lotbook.Ledger

variable {l l₁ : Ledger} {edit : Edit}

/-! ## Owners -/

/-- The owner of an entry is the transaction that the entry names. -/
theorem owner?_eq_some {id : EntryId} {t : Transaction} :
    l.owner? id = some t ↔
      ∃ e owner, l.entry? id = some e ∧ e.transaction = some owner ∧ l.transaction? owner = some t := by
  rw [owner?]
  cases l.entry? id with
  | none => simp
  | some e =>
    cases h : e.transaction with
    | none => simp [h]
    | some owner => simp [h]

theorem transaction?_of_owner? {id : EntryId} {t : Transaction} (h : l.owner? id = some t) :
    l.transaction? t.id = some t := by
  obtain ⟨e, owner, -, -, ht⟩ := owner?_eq_some.mp h
  obtain rfl : t.id = owner := id_of_transaction ht
  exact ht

theorem Sound.exists_owner (h : l.Sound) {id : EntryId} {e : Entry} (he : l.entry? id = some e) :
    ∃ t, l.owner? id = some t ∧ e.transaction = some t.id ∧ l.transaction? t.id = some t ∧
      id ∈ t.details := by
  obtain ⟨owner, t, howner, ht, hmem⟩ := h.owned.owner id e he
  obtain rfl : t.id = owner := id_of_transaction ht
  exact ⟨t, owner?_eq_some.mpr ⟨e, t.id, he, howner, ht⟩, howner, ht, hmem⟩

/-! ## The ends of a transfer -/

/-- The transactions of both legs of a transfer. -/
def ends? (l : Ledger) (id : EntryId) : Option (Transaction × Transaction) := do
  return (← l.owner? id, ← l.owner? (← l.otherLeg? id))

/-- The ends of a transfer are the owners of an entry and of its other leg. -/
theorem ends?_eq_some {id : EntryId} {t t' : Transaction} :
    l.ends? id = some (t, t') ↔
      ∃ other, l.otherLeg? id = some other ∧ l.owner? id = some t ∧ l.owner? other = some t' := by
  simp only [ends?, bind, pure, Option.bind_eq_some_iff, Option.some.injEq, Prod.mk.injEq]
  constructor
  · rintro ⟨u, hu, other, hother, u', hu', rfl, rfl⟩
    exact ⟨other, hother, hu, hu'⟩
  · rintro ⟨other, hother, ht, ht'⟩
    exact ⟨t, ht, other, hother, t', ht', rfl, rfl⟩

/-- The entry is a leg of a transfer between transactions that are related. -/
def Joins (l : Ledger) (R : Transaction → Transaction → Prop) (id : EntryId) : Prop :=
  ∃ t t', l.ends? id = some (t, t') ∧ R t t'

theorem Joins.mono {R S : Transaction → Transaction → Prop} {id : EntryId} (h : l.Joins R id)
    (hRS : ∀ t t', R t t' → S t t') : l.Joins S id := by
  obtain ⟨t, t', hends, hR⟩ := h
  exact ⟨t, t', hends, hRS t t' hR⟩

/-! ## New transfers -/

/-- The transactions and the entries after a transfer was added: the new transaction has the date of
the old one, and its security if shares are moved. -/
theorem addTransfer_lookUps (hs : l.Given) {transaction : TransactionId} {otherAccount : AccountId}
    {amount quantity : Option Decimal} {legs : EntryId × EntryId}
    (h : l.addTransfer transaction otherAccount amount quantity = .ok (legs, l₁)) :
    ∃ t q other e o, l.transaction? transaction = some t ∧
      other.date = t.date ∧ other.security = q.bind (fun _ => t.security) ∧
      (e.transaction = some transaction ∧ e.related = some ⟨l.issued + 3⟩ ∧ e.quantity = q) ∧
      (o.transaction = some ⟨l.issued + 1⟩ ∧ o.related = some ⟨l.issued + 2⟩ ∧
        o.quantity = q.map (-·)) ∧
      (∀ i, l₁.transaction? i =
        if i = ⟨l.issued + 1⟩ then some other
        else if i = transaction then
          (l.transaction? i).map fun t => { t with details := t.details ++ [⟨l.issued + 2⟩] }
        else l.transaction? i) ∧
      ∀ i, l₁.entry? i =
        if i = ⟨l.issued + 3⟩ then some o else if i = ⟨l.issued + 2⟩ then some e else l.entry? i := by
  obtain ⟨t, q, other, e, o, ht, -, hother, he, ho, -, rfl⟩ := addTransfer_eq_ok h
  have howner : e.transaction = some transaction := by rw [he]
  have howner' : o.transaction = some ⟨l.issued + 1⟩ := by rw [ho]
  have heid : e.id = ⟨l.issued + 2⟩ := by rw [he]
  have hoid : o.id = ⟨l.issued + 3⟩ := by rw [ho]
  have hput : ∀ i, (l.transactions.put other).get? i =
      if i = ⟨l.issued + 1⟩ then some other else l.transaction? i :=
    Register.get?_put_of_key (by rw [hother]; rfl) l.transactions
  have hnew : transaction ≠ ⟨l.issued + 1⟩ := hs.transaction_ne_next ht
  refine ⟨t, q, { other with details := [⟨l.issued + 3⟩] }, e, o, ht, by rw [hother], by rw [hother],
    by simp [he], by simp [ho], fun i => ?_, fun i => ?_⟩
  · rw [transaction?_attach _ howner', transaction?_attach _ howner, hoid, heid]
    change (if i = ⟨l.issued + 1⟩ then Option.map _ (if i = transaction then
      Option.map _ ((l.transactions.put other).get? i) else (l.transactions.put other).get? i) else
      if i = transaction then Option.map _ ((l.transactions.put other).get? i) else
        (l.transactions.put other).get? i) = _
    rw [hput]
    by_cases hi : i = ⟨l.issued + 1⟩
    · subst hi
      simp [Ne.symm hnew, hother]
    · simp only [hi, if_false]
  · rw [entry?_attach, entry?_attach, hoid, heid]
    rfl

/-- What two transactions have in common when a transfer between them is made. -/
def Aligned (e : Entry) (t t' : Transaction) : Prop :=
  t.date = t'.date ∧ (e.quantity.isSome → t.security = t'.security)

/-- The legs of a new transfer are new entries, in transactions that are aligned. -/
theorem addTransfer_joins (hs : l.Given) {transaction : TransactionId} {otherAccount : AccountId}
    {amount quantity : Option Decimal} {legs : EntryId × EntryId}
    (h : l.addTransfer transaction otherAccount amount quantity = .ok (legs, l₁)) {id : EntryId}
    {e₁ : Entry} (he₁ : l₁.entry? id = some e₁) :
    l.entry? id = some e₁ ∨
      l.issued < id.number ∧ (e₁.isTransfer = true → l₁.Joins (Aligned e₁) id) := by
  obtain ⟨t, q, t', e, o, ht, hdate, hsecurity, ⟨howner, hrelated, hquantity⟩,
    ⟨howner', hrelated', hquantity'⟩, htransaction, hentry⟩ := addTransfer_lookUps hs h
  have hnew : transaction ≠ ⟨l.issued + 1⟩ := hs.transaction_ne_next ht
  have he : l₁.entry? ⟨l.issued + 2⟩ = some e := by simp [hentry]
  have ho : l₁.entry? ⟨l.issued + 3⟩ = some o := by simp [hentry]
  have hleg : l₁.owner? ⟨l.issued + 2⟩ =
      some { t with details := t.details ++ [⟨l.issued + 2⟩] } := by
    refine owner?_eq_some.mpr ⟨e, transaction, he, howner, ?_⟩
    rw [htransaction, if_neg hnew, if_pos rfl, ht]
    rfl
  have hother : l₁.owner? ⟨l.issued + 3⟩ = some t' :=
    owner?_eq_some.mpr ⟨o, ⟨l.issued + 1⟩, ho, howner', by simp [htransaction]⟩
  have hshared : q.isSome = true → t.security = t'.security := by
    intro hshares
    obtain ⟨shares, rfl⟩ := Option.isSome_iff_exists.mp hshares
    exact hsecurity.symm
  rw [hentry] at he₁
  split at he₁
  · rename_i hid
    obtain rfl := Option.some.inj he₁
    subst hid
    refine .inr ⟨by simp, fun _ => ⟨t', _, ends?_eq_some.mpr ⟨_,
      otherLeg?_eq_some.mpr ⟨o, ho, hrelated'⟩, hother, hleg⟩, hdate, fun hshares => ?_⟩⟩
    rw [hquantity', Option.isSome_map] at hshares
    exact (hshared hshares).symm
  · split at he₁
    · rename_i hid
      obtain rfl := Option.some.inj he₁
      subst hid
      exact .inr ⟨by simp, fun _ => ⟨_, t', ends?_eq_some.mpr ⟨_,
        otherLeg?_eq_some.mpr ⟨e, he, hrelated⟩, hleg, hother⟩, hdate.symm,
          fun hshares => hshared (hquantity ▸ hshares)⟩⟩
    · exact .inl he₁

/-! ## What edits touch -/

/-- A part of a ledger. -/
inductive Part where
  | securities
  | categories
  | transactions
  | entries
  | lots
  deriving DecidableEq

/-- The parts of a ledger that an edit may change. -/
def Edit.touches : Edit → List Part
  | .addSecurity _ => [.securities]
  | .addCategory .. => [.categories]
  | .addSplit .. | .removeSplit .. => [.securities, .lots]
  | .addTransaction .. | .setAccount .. | .setTransactionMemo .. => [.transactions]
  | .setDate .. | .setSecurity .. => [.transactions, .lots]
  | .addEntry .. | .addTransfer .. => [.transactions, .entries]
  | .setAmount .. | .setQuantity .. | .setCategory .. | .setEntryMemo .. => [.entries]
  | .removeTransaction _ | .removeEntry _ => [.transactions, .entries, .lots]
  | .insertLot _ | .setLotShares .. | .removeLot _ | .allocateShares .. | .allocateLots ..
  | .allocateByStrategy .. => [.lots]

/-- The settings and all parts that an edit does not touch are the same. -/
structure Untouched (touched : List Part) (l l₁ : Ledger) : Prop where
  settings : l₁.settings = l.settings
  securities : .securities ∉ touched → l₁.securities = l.securities
  categories : .categories ∉ touched → l₁.categories = l.categories
  transactions : .transactions ∉ touched → l₁.transactions = l.transactions
  entries : .entries ∉ touched → l₁.entries = l.entries
  lots : .lots ∉ touched → l₁.lots = l.lots

/-- An operation leaves the parts of the ledger that it does not touch. Those that derive lots again are
known to change nothing else (`Rederived.same`), and those that reach linked transactions nothing but
transactions. -/
theorem Operation.untouched (hop : Operation l edit l₁) : Untouched edit.touches l l₁ := by
  cases hop with
  | addSplit h =>
    obtain ⟨s, _, -, -, rfl, hrederived⟩ := addSplit_eq_ok h
    rw [hrederived.same]
    constructor <;> simp [Edit.touches, withHistory]
  | removeSplit h =>
    obtain ⟨s, -, -, ⟨-, rfl⟩ | ⟨-, _, rfl, hrederived⟩⟩ := removeSplit_eq_ok h
    · constructor <;> simp
    · rw [hrederived.same]
      constructor <;> simp [Edit.touches, withHistory]
  | setDate h =>
    obtain ⟨l₂, -, hspread, hrederived⟩ := setDate_eq_ok h
    rw [hrederived.same, hspread.same]
    constructor <;> simp [Edit.touches]
  | setSecurity h =>
    obtain ⟨l₂, -, hspread, hrederived⟩ := setSecurity_eq_ok h
    rw [hrederived.same, hspread.same]
    constructor <;> simp [Edit.touches]
  | setAccount h =>
    obtain ⟨t, -, -, rfl⟩ := setAccount_eq_ok h
    constructor <;> simp [Edit.touches]
  | setTransactionMemo h =>
    obtain ⟨t, -, rfl⟩ := setTransactionMemo_eq_ok h
    constructor <;> simp [Edit.touches]
  | addEntry h =>
    obtain ⟨-, -, -, rfl⟩ := addEntry_eq_ok h
    constructor <;> simp [Edit.touches, attach]
  | addTransfer h =>
    obtain ⟨_, _, _, _, _, -, -, -, -, -, -, rfl⟩ := addTransfer_eq_ok h
    constructor <;> simp [Edit.touches, attach]
  | setAmount h =>
    obtain ⟨e, -, -, rfl⟩ := setAmount_eq_ok h
    rw [reviseLegs_eq]
    constructor <;> simp [Edit.touches]
  | setQuantity h =>
    obtain ⟨e, -, -, rfl⟩ := setQuantity_eq_ok h
    rw [reviseLegs_eq]
    constructor <;> simp [Edit.touches]
  | setCategory h =>
    obtain ⟨-, e, -, -, rfl⟩ := setCategory_eq_ok h
    constructor <;> simp [Edit.touches]
  | setEntryMemo h =>
    obtain ⟨e, -, rfl⟩ := setEntryMemo_eq_ok h
    constructor <;> simp [Edit.touches]
  | removeEntry h =>
    obtain ⟨e, -, -, -, -, -, hl₁⟩ := removeEntry_eq_ok h
    rw [hl₁]
    constructor <;> simp [Edit.touches]
  | insertLot h =>
    obtain ⟨-, -, -, rfl⟩ := insertLot_eq_ok h
    constructor <;> simp [Edit.touches]
  | setLotShares h =>
    obtain ⟨lot, p, -, -, rfl⟩ := setLotShares_eq_ok h
    constructor <;> simp [Edit.touches]
  | removeLot h =>
    obtain ⟨-, rfl⟩ := removeLot_eq_ok h
    constructor <;> simp [Edit.touches]
  | addSecurity | addCategory | addTransaction | dropTransaction =>
    constructor <;> first | rfl | (intro htouched; first | rfl | simp [Edit.touches] at htouched)

/-! ## What edits set -/

/-- Whether an edit sets dates. -/
def Edit.setsDate : Edit → Bool
  | .setDate .. => true
  | _ => false

/-- Whether an edit sets securities. -/
def Edit.setsSecurity : Edit → Bool
  | .setSecurity .. => true
  | _ => false

/-- Whether an edit sets shares of entries. -/
def Edit.setsQuantity : Edit → Bool
  | .setQuantity .. => true
  | _ => false

/-- A transaction keeps its date and its security, unless an edit sets them. -/
structure Edit.KeepsTransaction (edit : Edit) (t t₁ : Transaction) : Prop where
  id : t₁.id = t.id
  date : edit.setsDate = false → t₁.date = t.date
  security : edit.setsSecurity = false → t₁.security = t.security

theorem Edit.keepsTransaction_refl (edit : Edit) (t : Transaction) : edit.KeepsTransaction t t :=
  ⟨rfl, fun _ => rfl, fun _ => rfl⟩

/-- An entry stays with its transaction, it may be unlinked but is not linked to another entry, and it
keeps its shares, unless an edit sets them. -/
structure Edit.KeepsEntry (edit : Edit) (e e₁ : Entry) : Prop where
  transaction : e₁.transaction = e.transaction
  related : ∀ other, e₁.related = some other → e.related = some other
  quantity : edit.setsQuantity = false → e₁.quantity = e.quantity

theorem Edit.keepsEntry_refl (edit : Edit) (e : Entry) : edit.KeepsEntry e e :=
  ⟨rfl, fun _ h => h, fun _ => rfl⟩

theorem Edit.KeepsEntry.isTransfer {e e₁ : Entry} (h : edit.KeepsEntry e e₁)
    (hlinked : e₁.isTransfer = true) : e.isTransfer = true := by
  obtain ⟨other, hother⟩ := Option.isSome_iff_exists.mp hlinked
  exact Option.isSome_iff_exists.mpr ⟨other, h.related other hother⟩

/-- A transaction that is replaced by itself keeps what the new one keeps, as do all others. -/
theorem Edit.keepsTransaction_put {t t' t₁ : Transaction} {i id : TransactionId}
    (ht : l.transaction? i = some t)
    (ht₁ : { l with transactions := l.transactions.put t' }.transaction? id = some t₁)
    (hkeeps : edit.KeepsTransaction t t') :
    ∃ t, l.transaction? id = some t ∧ edit.KeepsTransaction t t₁ := by
  rw [transaction?_put, hkeeps.id, id_of_transaction ht] at ht₁
  split at ht₁
  · rename_i hid
    obtain rfl := Option.some.inj ht₁
    exact ⟨t, hid ▸ ht, hkeeps⟩
  · exact ⟨t₁, ht₁, edit.keepsTransaction_refl t₁⟩

/-- Transactions that a value is spread to keep what setting it keeps, as do all others. -/
theorem Edit.keepsTransaction_spread {α : Type} {field : TransactionField α} {value : α}
    {changes : Changes α} {id : TransactionId} {t₁ : Transaction}
    (hspread : Spread field value l l₁ changes) (ht₁ : l₁.transaction? id = some t₁)
    (hkeeps : ∀ t, edit.KeepsTransaction t (field.set t value)) :
    ∃ t, l.transaction? id = some t ∧ edit.KeepsTransaction t t₁ := by
  rw [hspread.transaction?_eq] at ht₁
  split at ht₁
  · obtain ⟨t, ht, rfl⟩ := Option.map_eq_some_iff.mp ht₁
    exact ⟨t, ht, hkeeps t⟩
  · exact ⟨t₁, ht₁, edit.keepsTransaction_refl t₁⟩

/-- A transaction after an operation was there before, or it has a new number. -/
theorem Operation.transaction? (hs : l.Sound) (hop : Operation l edit l₁) {id : TransactionId}
    {t₁ : Transaction} (ht₁ : l₁.transaction? id = some t₁) :
    (∃ t, l.transaction? id = some t ∧ edit.KeepsTransaction t t₁) ∨ l.issued < id.number := by
  have same (h : l.transaction? id = some t₁) :
      ∃ t, l.transaction? id = some t ∧ edit.KeepsTransaction t t₁ :=
    ⟨t₁, h, edit.keepsTransaction_refl t₁⟩
  have detailed {f : Transaction → Transaction} (h : (l.transaction? id).map f = some t₁)
      (hf : ∀ t, edit.KeepsTransaction t (f t)) :
      ∃ t, l.transaction? id = some t ∧ edit.KeepsTransaction t t₁ := by
    obtain ⟨t, ht, rfl⟩ := Option.map_eq_some_iff.mp h
    exact ⟨t, ht, hf t⟩
  by_cases htouched : .transactions ∈ edit.touches
  case neg =>
    have hsame := hop.untouched.transactions htouched
    exact .inl (same ((congrArg (Register.get? · id) hsame).symm.trans ht₁))
  cases hop with
  | addTransaction account date security =>
    rw [transaction?_addTransaction] at ht₁
    split at ht₁
    · rename_i hid
      exact .inr (hid ▸ Int.lt_succ _)
    · exact .inl (same ht₁)
  | setAccount h =>
    obtain ⟨t, ht, -, rfl⟩ := setAccount_eq_ok h
    exact .inl (Edit.keepsTransaction_put ht ht₁ ⟨rfl, fun _ => rfl, fun _ => rfl⟩)
  | setTransactionMemo h =>
    obtain ⟨t, ht, rfl⟩ := setTransactionMemo_eq_ok h
    exact .inl (Edit.keepsTransaction_put ht ht₁ ⟨rfl, fun _ => rfl, fun _ => rfl⟩)
  | setDate h =>
    obtain ⟨l₂, -, hspread, hrederived⟩ := setDate_eq_ok h
    rw [hrederived.same] at ht₁
    exact .inl (Edit.keepsTransaction_spread hspread ht₁ fun t =>
      ⟨rfl, (fun h => by cases h), fun _ => rfl⟩)
  | setSecurity h =>
    obtain ⟨l₂, -, hspread, hrederived⟩ := setSecurity_eq_ok h
    rw [hrederived.same] at ht₁
    exact .inl (Edit.keepsTransaction_spread hspread ht₁ fun t =>
      ⟨rfl, fun _ => rfl, fun h => by cases h⟩)
  | dropTransaction =>
    rw [transaction?_erase] at ht₁
    split at ht₁
    · cases ht₁
    · exact .inl (same ht₁)
  | addEntry h =>
    obtain ⟨-, -, rfl, rfl⟩ := addEntry_eq_ok h
    rw [transaction?_attach _ rfl] at ht₁
    split at ht₁
    · exact .inl (detailed ht₁ fun t => ⟨rfl, fun _ => rfl, fun _ => rfl⟩)
    · exact .inl (same ht₁)
  | addTransfer h =>
    obtain ⟨_, _, _, _, _, -, -, -, -, -, ht, -⟩ := addTransfer_lookUps hs.given h
    rw [ht] at ht₁
    split at ht₁
    · rename_i hid
      exact .inr (hid ▸ Int.lt_succ _)
    · split at ht₁
      · exact .inl (detailed ht₁ fun t => ⟨rfl, fun _ => rfl, fun _ => rfl⟩)
      · exact .inl (same ht₁)
  | removeEntry h =>
    obtain ⟨e, -, -, ht, -⟩ := removeEntry_eq_ok h
    rw [ht] at ht₁
    split at ht₁
    · exact .inl (detailed ht₁ fun t => ⟨rfl, fun _ => rfl, fun _ => rfl⟩)
    · exact .inl (same ht₁)
  | _ => simp [Edit.touches] at htouched

/-- An entry after an operation was there before, or it has a new number; a new leg of a transfer
aligns the transactions of both legs. -/
theorem Operation.entry? (hs : l.Sound) (hop : Operation l edit l₁) {id : EntryId} {e₁ : Entry}
    (he₁ : l₁.entry? id = some e₁) :
    (∃ e, l.entry? id = some e ∧ edit.KeepsEntry e e₁) ∨
      l.issued < id.number ∧ (e₁.isTransfer = true → l₁.Joins (Aligned e₁) id) := by
  have same (h : l.entry? id = some e₁) :
      ∃ e, l.entry? id = some e ∧ edit.KeepsEntry e e₁ :=
    ⟨e₁, h, edit.keepsEntry_refl e₁⟩
  by_cases htouched : .entries ∈ edit.touches
  case neg =>
    have hsame := hop.untouched.entries htouched
    exact .inl (same ((congrArg (Register.get? · id) hsame).symm.trans he₁))
  cases hop with
  | addEntry h =>
    obtain ⟨-, -, rfl, rfl⟩ := addEntry_eq_ok h
    rw [entry?_attach] at he₁
    split at he₁
    · rename_i hid
      obtain rfl := Option.some.inj he₁
      exact .inr ⟨hid ▸ Int.lt_succ _, fun hother => by cases hother⟩
    · exact .inl (same he₁)
  | addTransfer h =>
    rcases addTransfer_joins hs.given h he₁ with hold | hnew
    · exact .inl (same hold)
    · exact .inr hnew
  | setAmount h =>
    obtain ⟨e, he, -, rfl⟩ := setAmount_eq_ok h
    obtain ⟨x, hx, rfl | rfl | rfl⟩ :=
      hs.paired.of_entry?_reviseLegs he he₁ (fun _ => rfl) fun _ => rfl
    all_goals exact .inl ⟨_, hx, rfl, fun _ h => h, fun _ => rfl⟩
  | setQuantity h =>
    obtain ⟨e, he, -, rfl⟩ := setQuantity_eq_ok h
    obtain ⟨x, hx, rfl | rfl | rfl⟩ :=
      hs.paired.of_entry?_reviseLegs he he₁ (fun _ => rfl) fun _ => rfl
    all_goals exact .inl ⟨_, hx, rfl, fun _ h => h, fun h => by cases h⟩
  | setCategory h =>
    obtain ⟨-, e, he, -, rfl⟩ := setCategory_eq_ok h
    obtain hx | ⟨hx, rfl⟩ := of_entry?_put he he₁ rfl
    all_goals exact .inl ⟨_, hx, rfl, fun _ h => h, fun _ => rfl⟩
  | setEntryMemo h =>
    obtain ⟨e, he, rfl⟩ := setEntryMemo_eq_ok h
    obtain hx | ⟨hx, rfl⟩ := of_entry?_put he he₁ rfl
    all_goals exact .inl ⟨_, hx, rfl, fun _ h => h, fun _ => rfl⟩
  | removeEntry h =>
    obtain ⟨-, x, hx, rfl⟩ := hs.paired.of_entry?_removeEntry h he₁
    exact .inl ⟨x, hx, transaction_unlinked x _, fun other h => (related_unlinked_eq_some.mp h).1,
      fun _ => quantity_unlinked x _⟩
  | dropTransaction => exact .inl (same he₁)
  | _ => simp [Edit.touches] at htouched

/-- An entry is there after an operation, unless it was removed. -/
theorem Operation.exists_entry (hs : l.Sound) (hop : Operation l edit l₁) {id : EntryId} {e : Entry}
    (he : l.entry? id = some e) : (∃ e₁, l₁.entry? id = some e₁) ∨ edit = .removeEntry id := by
  by_cases htouched : .entries ∈ edit.touches
  case neg =>
    have hsame := hop.untouched.entries htouched
    exact .inl ⟨e, (congrArg (Register.get? · id) hsame).trans he⟩
  cases hop with
  | addEntry h =>
    obtain ⟨-, -, rfl, rfl⟩ := addEntry_eq_ok h
    rw [entry?_attach]
    split
    · exact .inl ⟨_, rfl⟩
    · exact .inl ⟨e, he⟩
  | addTransfer h =>
    obtain ⟨_, _, _, _, _, -, -, -, -, -, -, hentry⟩ := addTransfer_lookUps hs.given h
    rw [hentry]
    split
    · exact .inl ⟨_, rfl⟩
    · split
      · exact .inl ⟨_, rfl⟩
      · exact .inl ⟨e, he⟩
  | setAmount h =>
    obtain ⟨x, hx, -, rfl⟩ := setAmount_eq_ok h
    obtain rfl : x.id = _ := id_of_entry hx
    exact .inl ⟨_, (entry?_reviseLegs l hx (hs.paired.related_ne hx) (by rfl) (fun _ => by rfl) id).trans
      (congrArg _ he)⟩
  | setQuantity h =>
    obtain ⟨x, hx, -, rfl⟩ := setQuantity_eq_ok h
    obtain rfl : x.id = _ := id_of_entry hx
    exact .inl ⟨_, (entry?_reviseLegs l hx (hs.paired.related_ne hx) (by rfl) (fun _ => by rfl) id).trans
      (congrArg _ he)⟩
  | setCategory h =>
    obtain ⟨-, x, hx, -, rfl⟩ := setCategory_eq_ok h
    rw [entry?_put]
    split
    · exact .inl ⟨_, rfl⟩
    · exact .inl ⟨e, he⟩
  | setEntryMemo h =>
    obtain ⟨x, hx, rfl⟩ := setEntryMemo_eq_ok h
    rw [entry?_put]
    split
    · exact .inl ⟨_, rfl⟩
    · exact .inl ⟨e, he⟩
  | @removeEntry _ removed _ h =>
    rw [hs.paired.entry?_removeEntry h, he]
    by_cases hid : id = removed
    · exact .inr (hid ▸ rfl)
    · exact .inl ⟨_, if_neg hid⟩
  | dropTransaction => exact .inl ⟨e, he⟩
  | _ => simp [Edit.touches] at htouched

/-- An entry that was there before is the one that it was, but for what is set. -/
theorem Operation.keepsEntry (hs : l.Sound) (hop : Operation l edit l₁) {id : EntryId} {e e₁ : Entry}
    (he : l.entry? id = some e) (he₁ : l₁.entry? id = some e₁) : edit.KeepsEntry e e₁ := by
  have hold : ¬ (l.issued : Int) < id.number := Int.not_lt.mpr (hs.given.entry id e he)
  obtain ⟨e', he', hkeeps⟩ := (hop.entry? hs he₁).resolve_right fun hnew => hold hnew.1
  obtain rfl := Option.some.inj (he.symm.trans he')
  exact hkeeps

/-- An entry that was there before keeps its owner, with all that is not set. -/
theorem Operation.owner? (hs : l.Sound) (hop : Operation l edit l₁) {id : EntryId} {e e₁ : Entry}
    (he : l.entry? id = some e) (he₁ : l₁.entry? id = some e₁) :
    ∃ t t₁, l.owner? id = some t ∧ l₁.owner? id = some t₁ ∧ edit.KeepsTransaction t t₁ := by
  have hkeeps := hop.keepsEntry hs he he₁
  obtain ⟨t, ht, howner, hget, -⟩ := hs.exists_owner he
  obtain ⟨t₁, ht₁, howner₁, hget₁, -⟩ := (hop.changed.sound hs).exists_owner he₁
  -- both owners have one number, and a number that is given already is not given again
  have hid : t₁.id = t.id :=
    Option.some.inj (howner₁.symm.trans (hkeeps.transaction.trans howner))
  rw [hid] at hget₁
  have hgiven : ¬ (l.issued : Int) < t.id.number :=
    Int.not_lt.mpr (hs.given.transaction t.id t hget)
  obtain ⟨t', ht', hkept⟩ := (hop.transaction? hs hget₁).resolve_right hgiven
  obtain rfl := Option.some.inj (hget.symm.trans ht')
  exact ⟨t, t₁, ht, ht₁, hkept⟩

/-- The ends of a transfer that was there before stay its ends. -/
theorem Operation.ends? (hs : l.Sound) (hop : Operation l edit l₁) {id : EntryId} {e e₁ : Entry}
    (he : l.entry? id = some e) (he₁ : l₁.entry? id = some e₁) (hlinked : e₁.isTransfer = true) :
    ∃ t t' t₁ t₁', l.ends? id = some (t, t') ∧ l₁.ends? id = some (t₁, t₁') ∧
      edit.KeepsTransaction t t₁ ∧ edit.KeepsTransaction t' t₁' := by
  obtain ⟨other, hother⟩ := Option.isSome_iff_exists.mp hlinked
  have hbefore := (hop.keepsEntry hs he he₁).related other hother
  obtain ⟨-, o, ho, -⟩ := hs.paired id e other he hbefore
  obtain ⟨-, o₁, ho₁, -⟩ := (hop.changed.sound hs).paired id e₁ other he₁ hother
  obtain ⟨t, t₁, ht, ht₁, hkeepst⟩ := hop.owner? hs he he₁
  obtain ⟨t', t₁', ht', ht₁', hkeepst'⟩ := hop.owner? hs ho ho₁
  exact ⟨t, t', t₁, t₁',
    ends?_eq_some.mpr ⟨other, otherLeg?_eq_some.mpr ⟨e, he, hbefore⟩, ht, ht'⟩,
    ends?_eq_some.mpr ⟨other, otherLeg?_eq_some.mpr ⟨e₁, he₁, hother⟩, ht₁, ht₁'⟩, hkeepst, hkeepst'⟩

end Lotbook.Ledger
