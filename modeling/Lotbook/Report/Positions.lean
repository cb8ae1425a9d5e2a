/-
# Lotbook.Report.Positions -- how share positions moved

Shares and transactions are counted for each transaction in each account and security. Transactions
without a security, and changes of no shares, leave no trace. A transaction that turns out to have
moved, to another account or another security, takes all of its shares along.
-/
import Lotbook.Report.Notice

namespace Lotbook

/-- A transaction in an account and a security. -/
structure HoldingKey where
  transaction : TransactionId
  account : AccountId
  security : SecurityId
  deriving DecidableEq

instance : Ranked HoldingKey where
  rank key := [key.transaction.number, key.account.number, key.security.number]
  rank_injective a b h := by
    obtain ⟨⟨_⟩, ⟨_⟩, ⟨_⟩⟩ := a
    obtain ⟨⟨_⟩, ⟨_⟩, ⟨_⟩⟩ := b
    simpa using h

/-- What was counted for a transaction in an account and a security. -/
structure Holding where
  key : HoldingKey
  shares : Decimal
  count : Int
  deriving DecidableEq

instance : Keyed Holding HoldingKey := ⟨Holding.key⟩

/-- Everything counted so far. -/
structure Positions where
  holdings : Register Holding
  deriving DecidableEq

namespace Positions

/-- Nothing was counted. -/
def empty : Positions := ⟨.empty⟩

/-- What was counted under a key. -/
def holdingAt (p : Positions) (key : HoldingKey) : Holding :=
  (p.holdings.get? key).getD ⟨key, 0, 0⟩

/-- The key of a transaction with the given account and security, if there is a security. -/
def keyOf? (id : TransactionId) (account : AccountId) (security : Option SecurityId) :
    Option HoldingKey :=
  security.map fun s => ⟨id, account, s⟩

/-- Counts transactions under a key, if there is one. -/
def addCount (p : Positions) (key : Option HoldingKey) (count : Int) : Positions :=
  match key with
  | some key =>
      let holding := p.holdingAt key
      ⟨p.holdings.put { holding with count := holding.count + count }⟩
  | none => p

/-- Adds shares to the transaction that an entry belongs to, if there is one with a security. -/
def addShares (p : Positions) (owner : Option Transaction) (shares : Decimal) :
    Except ArithmeticFault Positions :=
  match owner.bind fun t => keyOf? t.id t.account t.security with
  | some key =>
      if shares = 0 then .ok p
      else do
        let holding := p.holdingAt key
        return ⟨p.holdings.put { holding with shares := ← holding.shares.add shares }⟩
  | none => .ok p

/-- Books a transaction that came from another account or another security. -/
def move (p : Positions) (ledger : Ledger) (t : Transaction) (oldAccount : AccountId)
    (oldSecurity : Option SecurityId) : Except ArithmeticFault Positions := do
  let oldKey := keyOf? t.id oldAccount oldSecurity
  -- the old position was counted on its own: nothing is left to move
  if oldKey.any p.holdings.contains then return p
  let newKey := keyOf? t.id t.account t.security
  let total ← ledger.transactionQuantity t
  let tracked := ((newKey.bind p.holdings.get?).map Holding.shares).getD 0
  let holdings ←
    match oldKey with
    | some key => do pure (p.holdings.put ⟨key, ← tracked.sub total, -1⟩)
    | none => pure p.holdings
  match newKey with
  | some key => return ⟨holdings.put ⟨key, total, 1⟩⟩
  | none => return ⟨holdings⟩

/-- Takes in a notice. -/
def notify (context : ReportContext) (p : Positions) : Notice → Except ArithmeticFault Positions
  | .added (.transaction t) => .ok (p.addCount (keyOf? t.id t.account t.security) 1)
  | .added (.entry e) => p.addShares (context.ownerOf? e .empty) e.quantityOrZero
  | .changed (.transaction t) previous =>
      let oldAccount := previous.account?.getD t.account
      let oldSecurity := previous.security?.getD t.security
      if oldAccount = t.account ∧ oldSecurity = t.security then .ok p
      else p.move context.ledger t oldAccount oldSecurity
  | .changed (.entry e) previous =>
      match previous.quantity? with
      | some oldQuantity => do
          let delta ← e.quantityOrZero.sub (oldQuantity.getD 0)
          p.addShares (context.ownerOf? e .empty) delta
      | none => .ok p
  | .deleted (.transaction t) previous =>
      .ok (p.addCount
        (keyOf? t.id (previous.account?.getD t.account) (previous.security?.getD t.security)) (-1))
  | .deleted (.entry e) previous =>
      let quantity := (previous.quantity?.getD e.quantity).getD 0
      p.addShares (context.ownerOf? e previous) (-quantity)
  | _ => .ok p

/-- Adds a holding to the summary of its position. -/
def summarize (summaries : Register PositionSummary) (holding : Holding) :
    Except ArithmeticFault (Register PositionSummary) := do
  let account := holding.key.account
  let security := holding.key.security
  let s := (summaries.get? ⟨account, security⟩).getD ⟨account, security, 0, 0⟩
  let shareDelta ← s.shareDelta.add holding.shares
  return summaries.put { s with shareDelta, countDelta := s.countDelta + holding.count }

/-- One summary for each position that anything was counted for. -/
def summaries (p : Positions) : Except ArithmeticFault (Register PositionSummary) :=
  p.holdings.items.foldlM summarize .empty

/-- The event with the summaries, if there are any. -/
def events (p : Positions) : Except ArithmeticFault (List Event) := do
  match (← p.summaries).items with
  | [] => return []
  | items => return [.securitySummariesChanged items]

end Positions

end Lotbook
