/-
# Lotbook.Ledger.Entities -- what a ledger is made of

Transactions are dated movements in one account, made of entries. An entry with a related one is a
leg of a transfer; the other leg carries the opposite amount and the opposite number of shares. A
category says what the entries filed under it are for.
-/
import Lotbook.Split.History

namespace Lotbook

/-- What a category means for the security of a transaction. -/
inductive SecurityAction where
  | buy
  | sell
  | reinvest
  | sharesIn
  | sharesOut
  | dividend
  | interest
  | shortTermCapGain
  | midTermCapGain
  | longTermCapGain
  | commissionAndFees
  deriving DecidableEq

namespace SecurityAction

instance : Text.Named SecurityAction where
  all := [.buy, .sell, .reinvest, .sharesIn, .sharesOut, .dividend, .interest, .shortTermCapGain,
    .midTermCapGain, .longTermCapGain, .commissionAndFees]
  name
    | .buy => "BUY"
    | .sell => "SELL"
    | .reinvest => "REINVEST"
    | .sharesIn => "SHARES_IN"
    | .sharesOut => "SHARES_OUT"
    | .dividend => "DIVIDEND"
    | .interest => "INTEREST"
    | .shortTermCapGain => "SHORT_TERM_CAP_GAIN"
    | .midTermCapGain => "MID_TERM_CAP_GAIN"
    | .longTermCapGain => "LONG_TERM_CAP_GAIN"
    | .commissionAndFees => "COMMISSION_AND_FEES"

/-- Sales and removals of shares have to be backed by lots. -/
def requiresLots : SecurityAction → Bool
  | .sell | .sharesOut => true
  | _ => false

/-- Whether the action brings shares in. -/
def isAcquisition : SecurityAction → Bool
  | .buy | .reinvest | .sharesIn => true
  | _ => false

/-- Whether the action makes no sense without a security. -/
def requiresSecurity : SecurityAction → Bool
  | .commissionAndFees | .interest => false
  | _ => true

end SecurityAction

/-- The category of an entry that is not part of a transfer. -/
structure Category where
  id : CategoryId
  code : String
  /-- Entries of categories that do not affect the balance are left out of transaction amounts. -/
  affectsBalance : Bool
  action : Option SecurityAction
  deriving DecidableEq

instance : Keyed Category CategoryId := ⟨Category.id⟩

/-- A security and the splits recorded for it. -/
structure Security where
  id : SecurityId
  name : String
  /-- The places that its share counts are kept at. -/
  places : Nat
  history : SplitHistory
  deriving DecidableEq

instance : Keyed Security SecurityId := ⟨Security.id⟩

/-- One dated movement in one account. -/
structure Transaction where
  id : TransactionId
  account : AccountId
  date : Date
  security : Option SecurityId
  memo : Option String
  /-- The entries of the transaction, in the order they were added. -/
  details : List EntryId
  deriving DecidableEq

instance : Keyed Transaction TransactionId := ⟨Transaction.id⟩

/-- One line of a transaction. -/
structure Entry where
  id : EntryId
  /-- The owning transaction; an entry that was removed has none. -/
  transaction : Option TransactionId
  amount : Option Decimal
  quantity : Option Decimal
  category : Option CategoryId
  /-- The other leg, if the entry is one leg of a transfer. -/
  related : Option EntryId
  memo : Option String
  deriving DecidableEq

instance : Keyed Entry EntryId := ⟨Entry.id⟩

namespace Entry

/-- Whether the entry is a leg of a transfer. -/
def isTransfer (e : Entry) : Bool := e.related.isSome

/-- The amount, zero if there is none. -/
def amountOrZero (e : Entry) : Decimal := e.amount.getD 0

/-- The number of shares, zero if there is none. -/
def quantityOrZero (e : Entry) : Decimal := e.quantity.getD 0

/-- Whether there is no amount other than zero. -/
def hasZeroAmount (e : Entry) : Bool := e.amountOrZero = 0

end Entry

end Lotbook
