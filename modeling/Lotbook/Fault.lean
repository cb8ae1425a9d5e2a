/-
# Lotbook.Fault -- what stops a computation

A computation on decimals stops where a result does not fit. One on lots also stops where the shares
it has come to break a contract: each contract is checked as soon as the shares are known
(`LotContract.check`), so that nothing goes on with shares that break it. These are the assertions of a
development build; a build that leaves them out would go on.
-/
import Lotbook.Decimal.Value
import Lotbook.Identity

namespace Lotbook

/-- What is promised of the shares of a lot. -/
inductive LotContract where
  /-- The shares as of the purchase date back those as of the sale date. -/
  | backing (key : LotKey)
  /-- The shares as of the purchase date are found again when the splits are applied and reverted. -/
  | roundTrip (key : LotKey) (found shares : Decimal)
  /-- No more is allocated than is asked for and available. -/
  | allocation
  /-- The purchase is not left with less than nothing, unless it was before. -/
  | stock (key : LotKey)
  deriving DecidableEq

/-- What stops a computation. -/
inductive ArithmeticFault where
  | additionOverflow
  | subtractionOverflow
  | multiplicationOverflow
  | divisionOverflow
  | divisionByZero
  | broken (contract : LotContract)
  deriving DecidableEq

/-- Goes on only where a contract is kept. -/
def LotContract.check (contract : LotContract) (kept : Prop) [Decidable kept] :
    Except ArithmeticFault Unit :=
  if kept then .ok () else .error (.broken contract)

end Lotbook
