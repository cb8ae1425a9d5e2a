/-
# Lotbook.Lots.Matching -- matching sales with purchases

A sale is matched by growing the lots between it and its candidate purchases, in the order given,
until its shares are covered. A lot may grow as far as its own shares and what the purchase has left
can back after the splits in between, rounded down. Shares that a transfer moved to another account
can only be sold there. A lot that has grown is checked: if its purchase is left with less than
nothing, and was not before, the matching stops with a fault.
-/
import Lotbook.Ledger.Lots
import Lotbook.Lots.Strategy

namespace Lotbook.Ledger

/-! ## What a purchase has left -/

/-- Whether an entry belongs to a transaction of an account. -/
def isBookedIn (l : Ledger) (account : AccountId) (id : EntryId) : Bool :=
  match l.owner? id with
  | some t => t.account = account
  | none => false

/-- What a lot adds to the shares that a purchase has in another account than its own: what was moved
there, less what was sold or moved on from there. -/
def movedShares (l : Ledger) (account : AccountId) (shares : Decimal) (lot : Lot) :
    Except ArithmeticFault Decimal := do
  let related := (l.entry? lot.sale).bind Entry.related
  let shares ←
    if related.any (l.isBookedIn account) then shares.add lot.purchaseShares else pure shares
  if l.isBookedIn account lot.sale then shares.sub lot.purchaseShares else return shares

/-- The shares of a purchase available to a sale in an account, as of the purchase date. -/
def remainingForAccount (l : Ledger) (purchase : EntryId) (account : AccountId) :
    Except ArithmeticFault Decimal :=
  match l.owner? purchase with
  | none => .ok 0
  | some t =>
      if t.account = account then l.remainingShares purchase
      else (l.lotsByPurchase purchase).foldlM (l.movedShares account) 0

/-! ## Growing one lot -/

/-- Adds up to `demand` shares, as of the sale date, to a lot. Gives the demand left over; a lot that
is not there, or whose purchase is used up, takes nothing. -/
def allocateShares (l : Ledger) (key : LotKey) (demand : Decimal) :
    Except ArithmeticFault (Decimal × Ledger) :=
  if demand ≤ 0 then .ok (0, l)
  else
    match l.lot? key, l.owner? key.sale with
    | some lot, some sale => do
        let remaining ← l.remainingForAccount key.purchase sale.account
        -- the lot may keep what it has and take what is left
        let backed ← l.coveredBy (l.lotContext key) (← lot.purchaseShares.add remaining)
        let available := Decimal.max (← backed.sub lot.adjustedShares) 0
        let allocated := demand.min available
        if allocated = 0 then return (demand, l)
        let grown ← l.resized lot (← lot.adjustedShares.add allocated)
        let after : Ledger := { l with lots := l.lots.put grown }
        LotContract.check .allocation (allocated ≤ demand.min available)
        let left ← after.remainingForAccount key.purchase sale.account
        LotContract.check (.stock key) (remaining.min 0 ≤ left)
        return (← demand.sub allocated, after)
    | _, _ => .ok (demand, l)

/-! ## Matching a sale -/

/-- Covers what is left of the demand of a sale from candidates, one after the other. Lots are made
as needed; a new one that takes no shares is dropped again. Candidates that are no entries end the
matching; the lots made before stay. -/
def coverDemand (l : Ledger) (sale : EntryId) (demand : Decimal) :
    List EntryId → Except ArithmeticFault (Except LedgerError Allocation × Ledger)
  | [] => .ok (.ok ⟨[], [], demand⟩, l)
  | purchase :: candidates =>
      if demand = 0 then .ok (.ok ⟨[], [], demand⟩, l)
      else if purchase = sale then l.coverDemand sale demand candidates
      else
        let key : LotKey := ⟨purchase, sale⟩
        match l.lot? key with
        | some _ => do
            let (rest, l) ← l.allocateShares key demand
            let (outcome, l) ← l.coverDemand sale rest candidates
            if rest < demand then
              return (outcome.map fun a => { a with updated := key :: a.updated }, l)
            else return (outcome, l)
        | none =>
            match l.insertLot key with
            | .error e => .ok (.error e, l)
            | .ok l => do
                let (rest, l) ← l.allocateShares key demand
                if rest < demand then
                  let (outcome, l) ← l.coverDemand sale rest candidates
                  return (outcome.map fun a => { a with created := key :: a.created }, l)
                else
                  -- the new lot took nothing
                  let l := { l with lots := l.lots.erase key }
                  l.coverDemand sale rest candidates

/-- Matches a sale with candidate purchases, strictly in the order given. -/
def allocateLots (l : Ledger) (sale : EntryId) (candidates : List EntryId) :
    Except ArithmeticFault (Except LedgerError Allocation × Ledger) :=
  match l.entry? sale with
  | none => .ok (.error (.entryNotFound sale), l)
  | some e => do
      let uncovered ← (-e.quantityOrZero).sub (← l.coveredShares sale)
      l.coverDemand sale (Decimal.max uncovered 0) candidates

/-- Matches a sale with the unsold purchases of its account and security, in the order of a
strategy. -/
def allocateByStrategy (l : Ledger) (sale : EntryId) (strategy : LotStrategy) :
    Except ArithmeticFault (Except LedgerError Allocation × Ledger) :=
  match l.owner? sale with
  | none => .ok (.error (.detachedEntry sale), l)
  | some t =>
      match t.security with
      | none => .ok (.error (.missingSecurity t.id), l)
      | some security => do
          let candidates ← l.unsoldPurchases t.account security t.date
          l.allocateLots sale (← strategy.sort l candidates)

/-! ## Sales without enough lots -/

/-- Whether an entry that removes shares is not exactly covered by lots. A transfer leg that adds
shares passes the question on to the other leg, which removes them; `passes` bounds how often. -/
def isMissingLotsWithin (l : Ledger) : (passes : Nat) → EntryId → Except ArithmeticFault Bool
  | passes, sale =>
      match l.entry? sale with
      | none => .ok false
      | some e =>
          let quantity := e.quantityOrZero
          if quantity = 0 then .ok false
          else if !e.isTransfer && (l.action? e).any (fun action => !action.requiresLots) then .ok false
          else if quantity < 0 then do
            return decide ((← quantity.add (← l.coveredShares sale)) ≠ 0)
          else
            match passes, e.related with
            | passes + 1, some other => l.isMissingLotsWithin passes other
            | _, _ => .ok false

/-- Whether an entry that removes shares is not exactly covered by lots. -/
def isMissingLots (l : Ledger) (sale : EntryId) : Except ArithmeticFault Bool :=
  l.isMissingLotsWithin 1 sale

/-! ## Views of a lot -/

/-- What the purchase of a lot cost per share as of the sale date. -/
def purchasePrice (l : Ledger) (key : LotKey) : Except ArithmeticFault (Option Decimal) := do
  match ← l.unitPrice key.purchase with
  | none => return none
  | some price =>
      let ratio ← l.splitRatio (l.lotContext key)
      return some ((← ratio.revert price).round pricePlaces)

/-- All shares of the purchase of a lot, as of the sale date. -/
def totalPurchaseShares (l : Ledger) (key : LotKey) : Except ArithmeticFault Decimal :=
  let shares := ((l.entry? key.purchase).map Entry.quantityOrZero).getD 0
  l.applySplits (l.lotContext key) shares

/-- The shares that the purchase of a lot has left for its sale, as of the sale date. -/
def remainingPurchaseShares (l : Ledger) (key : LotKey) : Except ArithmeticFault Decimal :=
  match l.owner? key.sale with
  | none => .ok 0
  | some sale => do
      l.coveredBy (l.lotContext key) (← l.remainingForAccount key.purchase sale.account)

end Lotbook.Ledger
