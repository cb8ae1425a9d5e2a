/-
# Lotbook.Ledger.Entries -- adding, changing and removing entries

Share counts are kept at the places of the security. What is set on one leg of a transfer is set with
the opposite sign on the other. That both legs are each other's opposite is a contract too, but no
operation can break it (`Ledger.Paired.isNegated`), so that it is not checked here and is no fault. Removing an
entry drops the lots it is part of and makes the other leg, if there is one, an entry without a transfer.
-/
import Lotbook.Ledger.Lots

namespace Lotbook.Ledger

/-- Files an entry and lists it with its transaction. -/
def attach (l : Ledger) (e : Entry) : Ledger :=
  let transactions :=
    match e.transaction with
    | some owner => l.transactions.modify owner fun t => { t with details := t.details ++ [e.id] }
    | none => l.transactions
  { l with transactions, entries := l.entries.put e }

/-- Adds an entry to a transaction. -/
def addEntry (l : Ledger) (transaction : TransactionId) (amount quantity : Option Decimal)
    (category : Option CategoryId) : Except LedgerError (EntryId × Ledger) := do
  if (l.transaction? transaction).isNone then throw (.transactionNotFound transaction)
  if let some c := category then
    if (l.category? c).isNone then throw (.categoryNotFound c)
  let quantity := l.roundShares transaction quantity
  let (id, l) := l.issue .entry
  let e : Entry :=
    { id, transaction := some transaction, amount, quantity, category, related := none, memo := none }
  return (id, l.attach e)

/-- Adds a transfer: a leg in a transaction and the opposite leg in a new transaction of another
account. The new transaction has the security of the first if shares are moved. -/
def addTransfer (l : Ledger) (transaction : TransactionId) (otherAccount : AccountId)
    (amount quantity : Option Decimal) : Except LedgerError ((EntryId × EntryId) × Ledger) := do
  let t ← orError (.transactionNotFound transaction) (l.transaction? transaction)
  let quantity := l.roundShares transaction quantity
  let (otherTransaction, l) := l.issue .transaction
  let other : Transaction :=
    { id := otherTransaction
      account := otherAccount
      date := t.date
      security := quantity.bind fun _ => t.security
      memo := none
      details := [] }
  let l := { l with transactions := l.transactions.put other }
  let (leg, l) := l.issue .entry
  let (otherLeg, l) := l.issue .entry
  let e : Entry :=
    { id := leg, transaction := some transaction, amount, quantity, category := none,
      related := some otherLeg, memo := none }
  let e' : Entry :=
    { id := otherLeg, transaction := some otherTransaction, amount := amount.map (-·),
      quantity := quantity.map (-·), category := none, related := some leg, memo := none }
  return ((leg, otherLeg), (l.attach e).attach e')

/-- Revises an entry and, if it is a leg of a transfer, the other leg. -/
def reviseLegs (l : Ledger) (e : Entry) (here there : Entry → Entry) : Ledger :=
  let entries := l.entries.put (here e)
  match e.related with
  | some other => { l with entries := entries.modify other there }
  | none => { l with entries }

/-- Sets the amount of an entry, and the opposite on the other leg. Gives the amount before. -/
def setAmount (l : Ledger) (id : EntryId) (amount : Option Decimal) :
    Except LedgerError (Option Decimal × Ledger) := do
  let e ← orError (.entryNotFound id) (l.entry? id)
  return (e.amount,
    l.reviseLegs e (fun e => { e with amount }) fun o => { o with amount := amount.map (-·) })

/-- Sets the shares of an entry, rounded, and the opposite on the other leg. Gives the shares
before. -/
def setQuantity (l : Ledger) (id : EntryId) (quantity : Option Decimal) :
    Except LedgerError (Option Decimal × Ledger) := do
  let e ← orError (.entryNotFound id) (l.entry? id)
  let quantity :=
    match e.transaction with
    | some owner => l.roundShares owner quantity
    | none => quantity
  return (e.quantity,
    l.reviseLegs e (fun e => { e with quantity }) fun o => { o with quantity := quantity.map (-·) })

/-- Files an entry under another category, or under none. Gives the category before. -/
def setCategory (l : Ledger) (id : EntryId) (category : Option CategoryId) :
    Except LedgerError (Option CategoryId × Ledger) := do
  if let some c := category then
    if (l.category? c).isNone then throw (.categoryNotFound c)
  let e ← orError (.entryNotFound id) (l.entry? id)
  return (e.category, { l with entries := l.entries.put { e with category } })

/-- Sets the memo of an entry. Gives the memo before. -/
def setEntryMemo (l : Ledger) (id : EntryId) (memo : Option String) :
    Except LedgerError (Option String × Ledger) := do
  let e ← orError (.entryNotFound id) (l.entry? id)
  return (e.memo, { l with entries := l.entries.put { e with memo } })

/-- Removes an entry from its transaction and from the other leg, with all lots it is part of. The
entry that is given back has no transaction. -/
def removeEntry (l : Ledger) (id : EntryId) : Except LedgerError (Entry × Ledger) := do
  let e ← orError (.entryNotFound id) (l.entry? id)
  let transactions :=
    match e.transaction with
    | some owner =>
        l.transactions.modify owner fun t => { t with details := t.details.filter (· ≠ id) }
    | none => l.transactions
  let others := l.entries.erase id
  let entries :=
    match e.related with
    | some other =>
        others.modify other fun o => if o.related = some id then { o with related := none } else o
    | none => others
  let lots := (l.lotsTouching id).foldl (fun lots key => lots.erase key) l.lots
  return ({ e with transaction := none }, { l with transactions, entries, lots })

end Lotbook.Ledger
