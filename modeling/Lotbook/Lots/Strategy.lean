/-
# Lotbook.Lots.Strategy -- the order in which purchases are consumed

Each strategy gives every purchase a sort key, and purchases are consumed in ascending order of keys:
by date and identity, forwards or backwards, or by price per share with date and identity behind it.
Purchases without a price come last.
-/
import Lotbook.Ledger.Basic
import Lotbook.Order.Survey

namespace Lotbook

/-- The places that prices are rounded to. -/
def pricePlaces : Nat := 6

namespace Ledger

/-- What a purchase cost per share on its own date: by its amount if it has one, or else by the
expenses of its whole transaction. There is no price without shares or without a cost. -/
def unitPrice (l : Ledger) (purchase : EntryId) : Except ArithmeticFault (Option Decimal) :=
  match l.entry? purchase with
  | none => .ok none
  | some e =>
      if e.quantityOrZero = 0 then .ok none
      else do
        let cost ←
          if e.hasZeroAmount then
            match l.owner? purchase with
            | some t => do pure (some (← l.transactionExpense t).abs)
            | none => pure none
          else pure (some e.amountOrZero.abs)
        match cost with
        | some cost => return some ((← cost.div e.quantityOrZero.abs).round pricePlaces)
        | none => return none

/-- The date of a purchase, those without a date first, and then its identity. -/
def datedRank (l : Ledger) (id : EntryId) : List Int :=
  (match l.owner? id with
    | none => [0, 0, 0, 0]
    | some t => 1 :: rank t.date) ++ rank id

end Ledger

namespace LotStrategy

/-- Whether the order depends on prices. -/
def usesPrice : LotStrategy → Bool
  | .firstIn | .lastIn => false
  | .lowestPrice | .highestPrice => true

/-- The key that a purchase with the given price is sorted by. -/
def sortKey (strategy : LotStrategy) (l : Ledger) (price : Option Decimal) (id : EntryId) : List Int :=
  let dated := l.datedRank id
  match strategy, price with
  | .firstIn, _ => dated
  | .lastIn, _ => dated.map (-·)
  | .lowestPrice, some p => 0 :: p.units :: dated
  | .highestPrice, some p => 0 :: -p.units :: dated
  | .lowestPrice, none | .highestPrice, none => 1 :: 0 :: dated

/-- The key that a purchase is sorted by, at its own price if prices matter. -/
def key (strategy : LotStrategy) (l : Ledger) (id : EntryId) : Except ArithmeticFault (List Int) := do
  let price ← if strategy.usesPrice then l.unitPrice id else pure none
  return strategy.sortKey l price id

/-- Purchases in the order in which a sale consumes them. One alone needs no key; of several, the
fault of the first price that sorting asks for is the fault of the whole. -/
def sort (strategy : LotStrategy) (l : Ledger) (candidates : List EntryId) :
    Except ArithmeticFault (List EntryId) := do
  if candidates.length ≤ 1 then return candidates
  survey (strategy.key l) candidates
  let keyed ← candidates.mapM fun id => return (← strategy.key l id, id)
  return (keyed.mergeSort fun a b => !precedes b.1 a.1).map Prod.snd

end LotStrategy

end Lotbook
