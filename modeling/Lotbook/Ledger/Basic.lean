/-
# Lotbook.Ledger.Basic -- the ledger and what can be read from it

A ledger holds securities, categories, transactions, entries and lots, each filed under its own
identity. All identities come from one counter. Everything that follows from the entities is computed
when it is asked for: sums over the entries of a transaction, the shares of a purchase that no lot
consumes, and share counts across the splits between a purchase and a sale.
-/
import Lotbook.Ledger.Entities
import Lotbook.Lots.Lot
import Lotbook.Settings

namespace Lotbook

/-- The state of a ledger. -/
structure Ledger where
  settings : Settings
  /-- The last number given to a security, category, transaction or entry. -/
  issued : Nat
  securities : Register Security
  categories : Register Category
  transactions : Register Transaction
  entries : Register Entry
  lots : Register Lot
  deriving DecidableEq

namespace Ledger

/-- The ledger without any entities. -/
def new (settings : Settings) : Ledger := ⟨settings, 0, .empty, .empty, .empty, .empty, .empty⟩

/-- A number that was never given before, and the ledger that has given it. -/
def issue (l : Ledger) (kind : IdentityKind) : Identity kind × Ledger :=
  (⟨l.issued + 1⟩, { l with issued := l.issued + 1 })

/-! ## Entities -/

/-- The security with an identity. -/
def security? (l : Ledger) (id : SecurityId) : Option Security := l.securities.get? id

/-- The category with an identity. -/
def category? (l : Ledger) (id : CategoryId) : Option Category := l.categories.get? id

/-- The transaction with an identity. -/
def transaction? (l : Ledger) (id : TransactionId) : Option Transaction := l.transactions.get? id

/-- The entry with an identity. -/
def entry? (l : Ledger) (id : EntryId) : Option Entry := l.entries.get? id

/-- The lot that links a purchase and a sale. -/
def lot? (l : Ledger) (key : LotKey) : Option Lot := l.lots.get? key

/-- The transaction that owns an entry. -/
def owner? (l : Ledger) (id : EntryId) : Option Transaction := do
  l.transaction? (← (← l.entry? id).transaction)

/-- The entry that an entry is linked to, if it is one leg of a transfer. -/
def otherLeg? (l : Ledger) (id : EntryId) : Option EntryId := (l.entry? id).bind Entry.related

/-- The other leg of a transfer, as far as it is there. -/
def linkedLeg? (l : Ledger) (id : EntryId) : Option Entry := (l.otherLeg? id).bind l.entry?

/-- What the category of an entry means for the security. -/
def action? (l : Ledger) (e : Entry) : Option SecurityAction := do
  (← l.category? (← e.category)).action

/-- The entries of a transaction, in their order. -/
def details (l : Ledger) (t : Transaction) : List Entry := t.details.filterMap l.entry?

/-- The transactions on the other side of the transfers of a transaction; only of those that move
shares if `sharesOnly` is set. -/
def linked (l : Ledger) (id : TransactionId) (sharesOnly : Bool) : List TransactionId :=
  match l.transaction? id with
  | none => []
  | some t =>
      ((l.details t).filter fun e => !sharesOnly || e.quantity.isSome).filterMap (fun e => e.related)
        |>.filterMap l.entry?
        |>.filterMap (fun e => e.transaction)
        |>.filter (fun other => other ≠ id)

/-! ## Sums over a transaction -/

/-- Whether the amount of an entry is part of the balance. -/
def countsInBalance (l : Ledger) (e : Entry) : Bool :=
  match e.category.bind l.category? with
  | some c => c.affectsBalance
  | none => true

/-- The sum of the amounts that are part of the balance. -/
def transactionAmount (l : Ledger) (t : Transaction) : Except ArithmeticFault Decimal :=
  Decimal.sum (((l.details t).filter l.countsInBalance).filterMap Entry.amount)

/-- The sum of the share quantities. -/
def transactionQuantity (l : Ledger) (t : Transaction) : Except ArithmeticFault Decimal :=
  Decimal.sum ((l.details t).filterMap Entry.quantity)

/-- The sum of the negative amounts. -/
def transactionExpense (l : Ledger) (t : Transaction) : Except ArithmeticFault Decimal :=
  Decimal.sum (((l.details t).filterMap Entry.amount).filter fun amount => amount < 0)

/-! ## Lots and the shares they leave -/

/-- The lots that consume shares of a purchase, in the order of their keys. -/
def lotsByPurchase (l : Ledger) (purchase : EntryId) : List Lot :=
  l.lots.items.filter fun lot => lot.purchase = purchase

/-- The lots behind a sale, in the order of their keys. -/
def lotsBySale (l : Ledger) (sale : EntryId) : List Lot :=
  l.lots.items.filter fun lot => lot.sale = sale

/-- The keys of the lots that an entry is part of. -/
def lotsTouching (l : Ledger) (id : EntryId) : List LotKey :=
  l.lots.keys.filter fun key => key.purchase = id ∨ key.sale = id

/-- The shares of an entry that no lot consumes, as of its own date. -/
def remainingShares (l : Ledger) (id : EntryId) : Except ArithmeticFault Decimal :=
  match l.entry? id with
  | none => .ok 0
  | some e => do
      let consumed ← Decimal.sum ((l.lotsByPurchase id).map Lot.purchaseShares)
      e.quantityOrZero.sub consumed

/-- The sum of the shares behind a sale, as of the sale date. -/
def coveredShares (l : Ledger) (sale : EntryId) : Except ArithmeticFault Decimal :=
  Decimal.sum ((l.lotsBySale sale).map Lot.adjustedShares)

/-- The purchases of a security in an account up to a day that still have shares: entries outside
transfers that bring shares in, by date and then by identity. -/
def unsoldPurchases (l : Ledger) (account : AccountId) (security : SecurityId) (upTo : Date) :
    Except ArithmeticFault (List EntryId) := do
  let candidates := l.entries.items.filterMap fun e =>
    if !e.isTransfer && decide (0 < e.quantityOrZero)
        && (l.action? e).all SecurityAction.isAcquisition then
      (e.transaction.bind l.transaction?).bind fun t =>
        if t.account = account ∧ t.security = some security ∧ t.date ≤ upTo then some (t.date, e.id)
        else none
    else none
  let unsold ← candidates.filterM fun c => return decide (0 < (← l.remainingShares c.2))
  return (unsold.mergeSort fun a b =>
    !precedes (rank b.1 ++ rank b.2) (rank a.1 ++ rank a.2)).map Prod.snd

/-! ## Share counts across splits -/

/-- Whose splits lie between which days. -/
structure SplitContext where
  security : Option SecurityId
  start : Option Date
  finish : Option Date
  deriving DecidableEq

/-- What determines how the shares of a lot are adjusted: the security of the purchase, or else of
the sale, and the days of both. -/
def lotContext (l : Ledger) (key : LotKey) : SplitContext :=
  let purchase := l.owner? key.purchase
  let sale := l.owner? key.sale
  { security := (purchase.bind Transaction.security).or (sale.bind Transaction.security)
    start := purchase.map Transaction.date
    finish := sale.map Transaction.date }

/-- The security and the period of a context; without a security or a first day there is nothing to
adjust. -/
def periodOf? (l : Ledger) (c : SplitContext) : Option (Security × HoldingPeriod) := do
  return (← l.security? (← c.security), ⟨← c.start, c.finish, l.settings.splitBoundary⟩)

/-- Shares at the start of a context in terms of shares at its end. -/
def applySplits (l : Ledger) (c : SplitContext) (shares : Decimal) :
    Except ArithmeticFault Decimal :=
  match l.periodOf? c with
  | some (s, period) => s.history.apply period shares
  | none => .ok shares

/-- Shares at the end of a context in terms of shares at its start. -/
def revertSplits (l : Ledger) (c : SplitContext) (shares : Decimal) :
    Except ArithmeticFault Decimal :=
  match l.periodOf? c with
  | some (s, period) => s.history.revert period shares s.places
  | none => .ok shares

/-- The most shares at the end of a context that `shares` at its start can back. -/
def coveredBy (l : Ledger) (c : SplitContext) (shares : Decimal) : Except ArithmeticFault Decimal :=
  match l.periodOf? c with
  | some (s, period) => s.history.covered period shares
  | none => .ok shares

/-- The fewest shares at the start of a context that back `shares` at its end. -/
def covering (l : Ledger) (c : SplitContext) (shares : Decimal) : Except ArithmeticFault Decimal :=
  match l.periodOf? c with
  | some (s, period) => s.history.covering period shares s.places
  | none => .ok shares

/-- The compound of the splits in a context. -/
def splitRatio (l : Ledger) (c : SplitContext) : Except ArithmeticFault SplitRatio :=
  match l.periodOf? c with
  | some (s, period) => s.history.ratioOver period
  | none => .ok .identity

/-- The places that share counts of a transaction are kept at. -/
def sharePlaces (l : Ledger) (transaction : TransactionId) : Nat :=
  match ((l.transaction? transaction).bind Transaction.security).bind l.security? with
  | some s => s.places
  | none => l.settings.sharePlaces

/-- A share count rounded to the places of its transaction. -/
def roundShares (l : Ledger) (transaction : TransactionId) (shares : Option Decimal) :
    Option Decimal :=
  shares.map (Decimal.round (l.sharePlaces transaction))

end Ledger

end Lotbook
