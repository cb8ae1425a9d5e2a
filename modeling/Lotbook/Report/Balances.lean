/-
# Lotbook.Report.Balances -- how the balances of accounts moved

Amounts and transactions are counted for each transaction in each account. When a transaction turns
out to have moved, its whole amount is booked on the new account and taken from the old one, less
what was booked on the new account before; unless the old account was counted on its own already.
-/
import Lotbook.Report.Notice

namespace Lotbook

/-- A transaction in an account. -/
structure BookingKey where
  transaction : TransactionId
  account : AccountId
  deriving DecidableEq

instance : Ranked BookingKey where
  rank key := [key.transaction.number, key.account.number]
  rank_injective a b h := by
    obtain ⟨⟨_⟩, ⟨_⟩⟩ := a
    obtain ⟨⟨_⟩, ⟨_⟩⟩ := b
    simpa using h

/-- What was counted for a transaction in an account. -/
structure Booking where
  key : BookingKey
  amount : Decimal
  count : Int
  deriving DecidableEq

instance : Keyed Booking BookingKey := ⟨Booking.key⟩

/-- Everything counted so far. -/
structure Balances where
  bookings : Register Booking
  deriving DecidableEq

namespace Balances

/-- Nothing was counted. -/
def empty : Balances := ⟨.empty⟩

/-- What was counted under a key. -/
def bookingAt (b : Balances) (key : BookingKey) : Booking :=
  (b.bookings.get? key).getD ⟨key, 0, 0⟩

/-- The key that a transaction is counted under now. -/
def keyOf (t : Transaction) : BookingKey := ⟨t.id, t.account⟩

/-- Counts transactions under a key. -/
def addCount (b : Balances) (key : BookingKey) (count : Int) : Balances :=
  let booking := b.bookingAt key
  ⟨b.bookings.put { booking with count := booking.count + count }⟩

/-- Adds an amount under a key. -/
def addAmount (b : Balances) (key : BookingKey) (amount : Decimal) :
    Except ArithmeticFault Balances := do
  let booking := b.bookingAt key
  return ⟨b.bookings.put { booking with amount := ← booking.amount.add amount }⟩

/-- Adds an amount to the transaction that an entry belongs to, if there is one. -/
def addEntryAmount (b : Balances) (owner : Option Transaction) (amount : Decimal) :
    Except ArithmeticFault Balances :=
  match owner with
  | some t => b.addAmount (keyOf t) amount
  | none => .ok b

/-- Books a transaction that came from another account. -/
def move (b : Balances) (ledger : Ledger) (t : Transaction) (oldAccount : AccountId) :
    Except ArithmeticFault Balances := do
  let oldKey : BookingKey := ⟨t.id, oldAccount⟩
  -- the old account was counted on its own: nothing is left to move
  if b.bookings.contains oldKey then return b
  let total ← ledger.transactionAmount t
  let left ← (b.bookingAt (keyOf t)).amount.sub total
  return ⟨(b.bookings.put ⟨oldKey, left, -1⟩).put ⟨keyOf t, total, 1⟩⟩

/-- Takes in a notice. -/
def notify (context : ReportContext) (b : Balances) : Notice → Except ArithmeticFault Balances
  | .added (.transaction t) => .ok (b.addCount (keyOf t) 1)
  | .added (.entry e) => b.addEntryAmount (context.ownerOf? e .empty) e.amountOrZero
  | .changed (.transaction t) previous =>
      match previous.account? with
      | some oldAccount => if oldAccount = t.account then .ok b else b.move context.ledger t oldAccount
      | none => .ok b
  | .changed (.entry e) previous =>
      match previous.amount? with
      | some oldAmount => do
          let delta ← e.amountOrZero.sub (oldAmount.getD 0)
          if delta = 0 then return b
          b.addEntryAmount (context.ownerOf? e .empty) delta
      | none => .ok b
  | .deleted (.transaction t) previous =>
      .ok (b.addCount ⟨t.id, previous.account?.getD t.account⟩ (-1))
  | .deleted (.entry e) previous =>
      let amount := (previous.amount?.getD e.amount).getD 0
      b.addEntryAmount (context.ownerOf? e previous) (-amount)
  | _ => .ok b

/-- Adds a booking to the summary of its account. -/
def summarize (summaries : Register AccountSummary) (booking : Booking) :
    Except ArithmeticFault (Register AccountSummary) := do
  let account := booking.key.account
  let s := (summaries.get? account).getD ⟨account, 0, 0⟩
  let balanceDelta ← s.balanceDelta.add booking.amount
  return summaries.put { s with balanceDelta, countDelta := s.countDelta + booking.count }

/-- One summary for each account that anything was counted for. -/
def summaries (b : Balances) : Except ArithmeticFault (Register AccountSummary) :=
  b.bookings.items.foldlM summarize .empty

/-- The event with the summaries, if there are any. -/
def events (b : Balances) : Except ArithmeticFault (List Event) := do
  match (← b.summaries).items with
  | [] => return []
  | items => return [.accountSummariesChanged items]

end Balances

end Lotbook
