/-
# Lotbook.Failure -- why an operation is refused

A split is refused for its ratio or its date, a change of the ledger for what it refers to; and a
computation stops where a decimal does not fit or a contract on lots is broken. `message` gives the
text of each.
-/
import Lotbook.Date
import Lotbook.Decimal.Numeral
import Lotbook.Identity

namespace Lotbook

/-- Why a split is not recorded. -/
inductive SplitError where
  | nonPositiveRatio (sharesOut sharesIn : Numeral)
  | duplicateDate (security : SecurityId) (date : Date)
  deriving DecidableEq

/-- Why a change of the ledger is refused. -/
inductive LedgerError where
  | transactionNotFound (id : TransactionId)
  | entryNotFound (id : EntryId)
  | securityNotFound (id : SecurityId)
  | categoryNotFound (id : CategoryId)
  | lotNotFound (key : LotKey)
  | duplicateLot (key : LotKey)
  | detachedEntry (id : EntryId)
  | missingSecurity (id : TransactionId)
  deriving DecidableEq

/-- Why an operation on the ledger has no result. -/
inductive Failure where
  | arithmetic (fault : ArithmeticFault)
  | ledger (error : LedgerError)
  | split (error : SplitError)
  deriving DecidableEq

/-- The text of a contract that is broken. -/
def LotContract.message : LotContract → String
  | .backing key => "lot " ++ key.text ++ " purchase shares do not back its adjusted shares"
  | .roundTrip key found shares =>
      "assertion `left == right` failed: split round trip of lot " ++ key.text ++ "\n  left: " ++
        found.text ++ "\n right: " ++ shares.text
  | .allocation => "assertion failed: allocated <= demand.min(available)"
  | .stock key => "allocation to lot " ++ key.text ++ " overdrew purchase " ++ key.purchase.text

/-- The text of a fault. -/
def ArithmeticFault.message : ArithmeticFault → String
  | .additionOverflow => "Addition overflowed"
  | .subtractionOverflow => "Subtraction overflowed"
  | .multiplicationOverflow => "Multiplication overflowed"
  | .divisionOverflow => "Division overflowed"
  | .divisionByZero => "Division by zero"
  | .broken contract => contract.message

/-- The text of a split error; numbers appear with the places they were given. -/
def SplitError.message : SplitError → String
  | .nonPositiveRatio sharesOut sharesIn =>
      "Split ratio must be positive, got " ++ sharesOut.text ++ " for " ++ sharesIn.text
  | .duplicateDate security date =>
      "Security " ++ security.text ++ " already has a split on " ++ date.text

/-- The text of a ledger error. -/
def LedgerError.message : LedgerError → String
  | .transactionNotFound id => "Transaction " ++ id.text ++ " not found"
  | .entryNotFound id => "Ledger entry " ++ id.text ++ " not found"
  | .securityNotFound id => "Security " ++ id.text ++ " not found"
  | .categoryNotFound id => "Category " ++ id.text ++ " not found"
  | .lotNotFound key => "Lot " ++ key.text ++ " not found"
  | .duplicateLot key => "Lot " ++ key.text ++ " already exists"
  | .detachedEntry id => "Ledger entry " ++ id.text ++ " has no transaction"
  | .missingSecurity id => "Transaction " ++ id.text ++ " has no security"

/-- The text of a failure, led by the part of the work that failed. -/
def Failure.message : Failure → String
  | .arithmetic fault => fault.message
  | .ledger error => "Ledger operation failed: " ++ error.message
  | .split error => "Stock split rejected: " ++ error.message

/-! ## Partial results as operations that may fail -/

instance : MonadLift (Except ArithmeticFault) (Except Failure) := ⟨Except.mapError .arithmetic⟩

instance : MonadLift (Except LedgerError) (Except Failure) := ⟨Except.mapError .ledger⟩

instance : MonadLift (Except SplitError) (Except Failure) := ⟨Except.mapError .split⟩

/-- The value of an option, or the given error in its place. -/
def orError {ε α : Type} (error : ε) : Option α → Except ε α
  | some a => .ok a
  | none => .error error

end Lotbook
