/-
# Lotbook.Session.Basic -- editing a ledger in a session

Every edit is applied to the ledger at once and noted in the journal under each entity it touches,
the ones it reaches through transfers, splits and lots included.
-/
import Lotbook.Ledger.Securities
import Lotbook.Ledger.Transactions
import Lotbook.Lots.Matching
import Lotbook.Session.Journal

namespace Lotbook

/-- A ledger under edit and the journal of the session. -/
structure Session where
  ledger : Ledger
  journal : Journal
  deriving DecidableEq

namespace Session

/-- Starts a session. -/
def start (ledger : Ledger) : Session := ⟨ledger, .empty⟩

/-! ## Securities and categories -/

/-- Adds a security. -/
def addSecurity (s : Session) (name : String) : SecurityId × Session :=
  let (id, ledger) := s.ledger.addSecurity name
  (id, ⟨ledger, s.journal.add (.security id)⟩)

/-- Adds a category. -/
def addCategory (s : Session) (code : String) (affectsBalance : Bool)
    (action : Option SecurityAction) : CategoryId × Session :=
  let (id, ledger) := s.ledger.addCategory code affectsBalance action
  (id, ⟨ledger, s.journal.add (.category id)⟩)

/-- Records a split. -/
def addSplit (s : Session) (id : SecurityId) (split : StockSplit) : Except Failure Session := do
  let ledger ← s.ledger.addSplit id split
  let journal := s.journal.add (.stockSplit id split.date)
  return ⟨ledger, journal.noteLots s.ledger ledger⟩

/-- Takes out a split. Says whether there was one. -/
def deleteSplit (s : Session) (id : SecurityId) (date : Date) : Except Failure (Bool × Session) := do
  let (removed, ledger) ← s.ledger.removeSplit id date
  match removed with
  | none => return (false, s)
  | some split =>
      let journal := s.journal.noteLots s.ledger ledger
      return (true, ⟨ledger, journal.remove (.stockSplit id split)⟩)

/-! ## Transactions -/

/-- Adds a transaction. -/
def addTransaction (s : Session) (account : AccountId) (date : Date)
    (security : Option SecurityId) : TransactionId × Session :=
  let (id, ledger) := s.ledger.addTransaction account date security
  (id, ⟨ledger, s.journal.add (.transaction id)⟩)

/-- Moves a transaction to another account. -/
def setAccount (s : Session) (id : TransactionId) (account : AccountId) :
    Except LedgerError Session := do
  let (previous, ledger) ← s.ledger.setAccount id account
  let journal :=
    if previous = account then s.journal else s.journal.change (.transaction id) (.account previous)
  return ⟨ledger, journal⟩

/-- Notes changes of transactions, each with the value that a field had before. -/
def noteChanges {α : Type} (journal : Journal) (changes : Ledger.Changes α)
    (value : α → FieldValue) : Journal :=
  changes.foldl (fun j c => j.change (.transaction c.1) (value c.2)) journal

/-- Sets the date of a transaction and of those it is linked to. -/
def setDate (s : Session) (id : TransactionId) (date : Date) : Except Failure Session := do
  let (changes, ledger) ← s.ledger.setDate id date
  return ⟨ledger, (noteChanges s.journal changes .date).noteLots s.ledger ledger⟩

/-- Sets the security of a transaction and of those that its shares were moved to or from. -/
def setSecurity (s : Session) (id : TransactionId) (security : Option SecurityId) :
    Except Failure Session := do
  let (changes, ledger) ← s.ledger.setSecurity id security
  return ⟨ledger, (noteChanges s.journal changes .security).noteLots s.ledger ledger⟩

/-! ## Entries -/

/-- Adds an entry. -/
def addEntry (s : Session) (transaction : TransactionId) (amount quantity : Option Decimal)
    (category : Option CategoryId) : Except LedgerError (EntryId × Session) := do
  let (id, ledger) ← s.ledger.addEntry transaction amount quantity category
  return (id, ⟨ledger, s.journal.add (.entry id)⟩)

/-- Adds a transfer. The new transaction is touched before its legs. -/
def addTransfer (s : Session) (transaction : TransactionId) (otherAccount : AccountId)
    (amount quantity : Option Decimal) : Except LedgerError ((EntryId × EntryId) × Session) := do
  let (legs, ledger) ← s.ledger.addTransfer transaction otherAccount amount quantity
  let owner := (ledger.entry? legs.2).bind Entry.transaction
  let journal := s.journal.addAll (owner.toList.map .transaction ++ [.entry legs.1, .entry legs.2])
  return (legs, ⟨ledger, journal⟩)

/-- Notes a change of an entry and of its other leg, each with the value before. -/
def noteLegs {α : Type} (journal : Journal) (id : EntryId) (before : α)
    (other : Option (EntryId × α)) (value : α → FieldValue) : Journal :=
  let journal := journal.change (.entry id) (value before)
  match other with
  | some (other, before) => journal.change (.entry other) (value before)
  | none => journal

/-- Sets the amount of an entry. -/
def setAmount (s : Session) (id : EntryId) (amount : Option Decimal) :
    Except LedgerError Session := do
  let other := (s.ledger.linkedLeg? id).map fun o => (o.id, o.amount)
  let (previous, ledger) ← s.ledger.setAmount id amount
  let journal :=
    if previous = amount then s.journal else noteLegs s.journal id previous other .amount
  return ⟨ledger, journal⟩

/-- Sets the shares of an entry. -/
def setQuantity (s : Session) (id : EntryId) (quantity : Option Decimal) :
    Except LedgerError Session := do
  let other := (s.ledger.linkedLeg? id).map fun o => (o.id, o.quantity)
  let (previous, ledger) ← s.ledger.setQuantity id quantity
  let stored := (ledger.entry? id).bind Entry.quantity
  let journal :=
    if previous = stored then s.journal else noteLegs s.journal id previous other .quantity
  return ⟨ledger, journal⟩

/-- Files an entry under another category, or under none. -/
def setCategory (s : Session) (id : EntryId) (category : Option CategoryId) :
    Except LedgerError Session := do
  let (previous, ledger) ← s.ledger.setCategory id category
  let journal :=
    if previous = category then s.journal else s.journal.change (.entry id) (.category previous)
  return ⟨ledger, journal⟩

/-! ## Lots -/

/-- Notes the outcome of matching a sale. -/
def noteAllocation (journal : Journal) (before : Ledger) (a : Allocation) : Journal :=
  a.updated.foldl
    (fun j key =>
      match before.lot? key with
      | some lot =>
          (j.change (.lot key) (.purchaseShares lot.purchaseShares)).change (.lot key)
            (.adjustedShares lot.adjustedShares)
      | none => j)
    (journal.addAll (a.created.map .lot))

/-- Takes over the outcome of matching a sale. Lots made by a matching that was refused later are in
the ledger but not in the journal. -/
def matched (s : Session) (outcome : Except LedgerError Allocation × Ledger) :
    Except LedgerError Allocation × Session :=
  match outcome with
  | (.ok a, ledger) => (.ok a, ⟨ledger, noteAllocation s.journal s.ledger a⟩)
  | (.error e, ledger) => (.error e, { s with ledger })

/-- Matches a sale with candidates, in the order given. -/
def matchLots (s : Session) (sale : EntryId) (candidates : List EntryId) :
    Except ArithmeticFault (Except LedgerError Allocation × Session) := do
  return s.matched (← s.ledger.allocateLots sale candidates)

/-- Matches a sale with unsold purchases, in the order of a strategy or of the settings. -/
def matchByStrategy (s : Session) (sale : EntryId) (strategy : Option LotStrategy) :
    Except ArithmeticFault (Except LedgerError Allocation × Session) := do
  let strategy := strategy.getD s.ledger.settings.lotStrategy
  return s.matched (← s.ledger.allocateByStrategy sale strategy)

/-- Takes out a lot. -/
def deleteLot (s : Session) (key : LotKey) : Except LedgerError Session := do
  let (lot, ledger) ← s.ledger.removeLot key
  return ⟨ledger, s.journal.remove (.lot lot)⟩

/-! ## Deletion -/

/-- Removes one entry with the lots it is part of. -/
def removeEntry (s : Session) (id : EntryId) : Except LedgerError Session := do
  let s ← (s.ledger.lotsTouching id).foldlM deleteLot s
  let owner := (s.ledger.entry? id).bind Entry.transaction
  let (e, ledger) ← s.ledger.removeEntry id
  return ⟨ledger, s.journal.removeEntry e owner⟩

/-- Removes a transaction with whatever entries it still owns. -/
def removeTransaction (s : Session) (id : TransactionId) : Except LedgerError Session := do
  let (t, ledger) ← s.ledger.removeTransaction id
  return ⟨ledger, s.journal.remove (.transaction t)⟩

/-- Deletes an entry. The other leg of a transfer goes with it, and the transaction of that leg once
it has no entries left. -/
def deleteEntry (s : Session) (id : EntryId) : Except LedgerError Session := do
  let e ← orError (.entryNotFound id) (s.ledger.entry? id)
  let other := s.ledger.linkedLeg? id
  let s ← s.removeEntry id
  match other with
  | none => return s
  | some other =>
      let s ← s.removeEntry other.id
      match other.transaction with
      | none => return s
      | some otherOwner =>
          -- a transfer within one transaction leaves its owner alone
          let isEmptied :=
            some otherOwner ≠ e.transaction
              ∧ ((s.ledger.transaction? otherOwner).map Transaction.details) = some []
          if isEmptied then s.removeTransaction otherOwner else return s

/-- Deletes entries, passing over those that are gone by the time it is their turn. -/
def deleteEntries (s : Session) (ids : List EntryId) : Except LedgerError Session :=
  ids.foldlM (fun s id => if (s.ledger.entry? id).isSome then s.deleteEntry id else return s) s

/-- Deletes a transaction with all of its entries and the other legs of their transfers. -/
def deleteTransaction (s : Session) (id : TransactionId) : Except LedgerError Session := do
  let t ← orError (.transactionNotFound id) (s.ledger.transaction? id)
  let s ← s.deleteEntries t.details
  if (s.ledger.transaction? id).isSome then s.removeTransaction id else return s

/-! ## Questions -/

/-- Whether an entry that removes shares is not exactly covered by lots. -/
def isMissingLots (s : Session) (sale : EntryId) : Except ArithmeticFault Bool :=
  s.ledger.isMissingLots sale

end Session

end Lotbook
