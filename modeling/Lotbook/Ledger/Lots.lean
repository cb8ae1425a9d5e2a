/-
# Lotbook.Ledger.Lots -- keeping the lots of a ledger

The shares of a lot as of the sale date are what is set; the shares as of the purchase date follow
from them and from the splits in between, and are derived again whenever those splits, a date or a
security under the lot change. Whenever they are derived, two contracts are checked: that they back
the shares as of the sale date, and that the splits, applied and reverted, find them again. An
operation that breaks a contract stops with a fault.
-/
import Lotbook.Failure
import Lotbook.Ledger.Basic

namespace Lotbook.Ledger

/-- Makes an empty lot of a purchase and a sale. -/
def insertLot (l : Ledger) (key : LotKey) : Except LedgerError Ledger :=
  if (l.entry? key.purchase).isNone then .error (.entryNotFound key.purchase)
  else if (l.entry? key.sale).isNone then .error (.entryNotFound key.sale)
  else if (l.lot? key).isSome then .error (.duplicateLot key)
  else .ok { l with lots := l.lots.put (Lot.empty key) }

/-- The shares of a lot as of the purchase date: as many as it takes to back those as of the sale date.
Both contracts are checked without the shortcut for lots that are not split, so that the products may
overflow or be rounded where the conversion has none. -/
def lotPurchaseShares (l : Ledger) (key : LotKey) (adjustedShares : Decimal) :
    Except ArithmeticFault Decimal := do
  let context := l.lotContext key
  let shares ← l.covering context adjustedShares
  let backed ← (← l.splitRatio context).apply shares
  LotContract.check (.backing key) (adjustedShares ≤ backed)
  let found ← l.revertSplits context (← l.applySplits context shares)
  LotContract.check (.roundTrip key found shares) (found = shares)
  return shares

/-- The lot with the given shares as of the sale date, and as many as of the purchase date as it
takes to back them. -/
def resized (l : Ledger) (lot : Lot) (adjustedShares : Decimal) : Except ArithmeticFault Lot := do
  let purchaseShares ← l.lotPurchaseShares lot.key adjustedShares
  return { lot with purchaseShares, adjustedShares }

/-- Sets the shares of a lot as of the sale date. -/
def setLotShares (l : Ledger) (key : LotKey) (adjustedShares : Decimal) : Except Failure Ledger := do
  let lot ← orError (.ledger (.lotNotFound key)) (l.lot? key)
  return { l with lots := l.lots.put (← l.resized lot adjustedShares) }

/-- Takes out a lot. -/
def removeLot (l : Ledger) (key : LotKey) : Except LedgerError (Lot × Ledger) := do
  let lot ← orError (.lotNotFound key) (l.lot? key)
  return (lot, { l with lots := l.lots.erase key })

/-- Derives the shares as of the purchase date again for the lots that `affected` selects. -/
def rederiveLots (l : Ledger) (affected : LotKey → Bool) : Except ArithmeticFault Ledger :=
  (l.lots.items.filter fun lot => affected lot.key).foldlM
    (fun acc lot => return { acc with lots := acc.lots.put (← l.resized lot lot.adjustedShares) }) l

/-- Derives the lots again whose splits are those of a security. -/
def rederiveLotsOfSecurity (l : Ledger) (id : SecurityId) : Except ArithmeticFault Ledger :=
  l.rederiveLots fun key => (l.lotContext key).security = some id

/-- Derives the lots again with a purchase or a sale in one of the given transactions. -/
def rederiveLotsOfTransactions (l : Ledger) (ids : List TransactionId) :
    Except ArithmeticFault Ledger :=
  let owned := fun (entry : EntryId) =>
    match (l.entry? entry).bind Entry.transaction with
    | some owner => ids.contains owner
    | none => false
  l.rederiveLots fun key => owned key.purchase || owned key.sale

end Lotbook.Ledger
