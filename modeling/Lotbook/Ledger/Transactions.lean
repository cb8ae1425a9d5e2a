/-
# Lotbook.Ledger.Transactions -- adding, changing and removing transactions

A date is shared with the transactions on the other side of transfers, a security with those that
shares were moved to or from, and on from there. Both setters say what they changed.
-/
import Lotbook.Ledger.Entries

namespace Lotbook.Ledger

/-- Adds a transaction without entries. -/
def addTransaction (l : Ledger) (account : AccountId) (date : Date) (security : Option SecurityId) :
    TransactionId × Ledger :=
  let (id, l) := l.issue .transaction
  (id, { l with transactions := l.transactions.put ⟨id, account, date, security, none, []⟩ })

/-- Moves a transaction to another account. Gives the account before. -/
def setAccount (l : Ledger) (id : TransactionId) (account : AccountId) :
    Except LedgerError (AccountId × Ledger) := do
  let t ← orError (.transactionNotFound id) (l.transaction? id)
  return (t.account, { l with transactions := l.transactions.put { t with account } })

/-- Sets the memo of a transaction. Gives the memo before. -/
def setTransactionMemo (l : Ledger) (id : TransactionId) (memo : Option String) :
    Except LedgerError (Option String × Ledger) := do
  let t ← orError (.transactionNotFound id) (l.transaction? id)
  return (t.memo, { l with transactions := l.transactions.put { t with memo } })

/-! ## Dates -/

/-- Transactions that were changed, each with the value it had before, in the order of the changes. -/
abbrev Changes (α : Type) := List (TransactionId × α)

/-- Sets the date of each of the given transactions that has another one. -/
def redate (l : Ledger) (date : Date) : List TransactionId → Changes Date × Ledger
  | [] => ([], l)
  | id :: rest =>
      match l.transaction? id with
      | none => l.redate date rest
      | some t =>
          if t.date = date then l.redate date rest
          else
            let l := { l with transactions := l.transactions.put { t with date } }
            let (changes, l) := l.redate date rest
            ((id, t.date) :: changes, l)

/-- Sets the date of a transaction and of the transactions it is linked to by transfers. -/
def setDate (l : Ledger) (id : TransactionId) (date : Date) :
    Except Failure (Changes Date × Ledger) := do
  if (l.transaction? id).isNone then throw (.ledger (.transactionNotFound id))
  let (changes, l) := l.redate date (id :: l.linked id false)
  let l ← l.rederiveLotsOfTransactions (changes.map Prod.fst)
  return (changes, l)

/-! ## Securities -/

/-- Takes the first transaction of a queue that is still unvisited, and what waits behind it. -/
def nextUnvisited (unvisited : List TransactionId) :
    List TransactionId → Option (TransactionId × List TransactionId)
  | [] => none
  | id :: rest => if id ∈ unvisited then some (id, rest) else nextUnvisited unvisited rest

theorem nextUnvisited_mem {unvisited queue rest : List TransactionId} {id : TransactionId}
    (h : nextUnvisited unvisited queue = some (id, rest)) : id ∈ unvisited := by
  induction queue with
  | nil => simp [nextUnvisited] at h
  | cons x xs ih =>
    rw [nextUnvisited] at h
    split at h
    · rename_i hx
      obtain ⟨rfl, rfl⟩ := Prod.mk.inj (Option.some.inj h)
      exact hx
    · exact ih h

/-- Sets the security of the transactions in a queue, breadth first: one that changes passes the
security on to the transactions that its shares were moved to or from, one that has it already does
not, unless it is the `source` of the change. -/
def spreadSecurity (l : Ledger) (source : TransactionId) (security : Option SecurityId)
    (unvisited queue : List TransactionId) : Changes (Option SecurityId) × Ledger :=
  match h : nextUnvisited unvisited queue with
  | none => ([], l)
  | some (id, rest) =>
      have : (unvisited.erase id).length < unvisited.length := by
        have := List.length_pos_of_mem (nextUnvisited_mem h)
        rw [List.length_erase_of_mem (nextUnvisited_mem h)]
        omega
      match l.transaction? id with
      | none => l.spreadSecurity source security (unvisited.erase id) rest
      | some t =>
          if t.security = security then
            -- a transaction that has the security stops the spread, except where it starts
            let queue := if id = source then rest ++ l.linked id true else rest
            l.spreadSecurity source security (unvisited.erase id) queue
          else
            let l := { l with transactions := l.transactions.put { t with security } }
            let queue := rest ++ l.linked id true
            let (changes, l) := l.spreadSecurity source security (unvisited.erase id) queue
            ((id, t.security) :: changes, l)
termination_by unvisited.length

/-- Sets the security of a transaction, and of the transactions that its shares were moved to or
from, and so on. -/
def setSecurity (l : Ledger) (id : TransactionId) (security : Option SecurityId) :
    Except Failure (Changes (Option SecurityId) × Ledger) := do
  if (l.transaction? id).isNone then throw (.ledger (.transactionNotFound id))
  let (changes, l) := l.spreadSecurity id security l.transactions.keys [id]
  let l ← l.rederiveLotsOfTransactions (changes.map Prod.fst)
  return (changes, l)

/-! ## Removal -/

/-- Removes entries one after the other. -/
def removeEntries (l : Ledger) (ids : List EntryId) : Except LedgerError Ledger :=
  ids.foldlM (fun l id => return (← l.removeEntry id).2) l

/-- Removes a transaction with the entries it still owns. -/
def removeTransaction (l : Ledger) (id : TransactionId) :
    Except LedgerError (Transaction × Ledger) := do
  let t ← orError (.transactionNotFound id) (l.transaction? id)
  let l ← l.removeEntries t.details
  let t ← orError (.transactionNotFound id) (l.transaction? id)
  return (t, { l with transactions := l.transactions.erase id })

end Lotbook.Ledger
