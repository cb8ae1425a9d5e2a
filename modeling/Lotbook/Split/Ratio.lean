/-
# Lotbook.Split.Ratio -- the ratio of a stock split

A ratio gives so many new shares for so many old ones. The two numbers are kept apart and never
reduced, so that compounding splits stays exact as long as the products fit.
-/
import Lotbook.Failure

namespace Lotbook

/-- `sharesOut` new shares for every `sharesIn` old shares. -/
structure SplitRatio where
  sharesOut : Decimal
  sharesIn : Decimal
  deriving DecidableEq

namespace SplitRatio

/-- One new share for every old one. -/
def identity : SplitRatio := ⟨1, 1⟩

instance : Inhabited SplitRatio := ⟨identity⟩

/-- The ratio of two numbers, both of which have to be positive. -/
def of (sharesOut sharesIn : Numeral) : Except SplitError SplitRatio :=
  if sharesOut.value ≤ 0 ∨ sharesIn.value ≤ 0 then .error (.nonPositiveRatio sharesOut sharesIn)
  else .ok ⟨sharesOut.value, sharesIn.value⟩

/-- Whether the split leaves share counts as they are. -/
def isIdentity (r : SplitRatio) : Bool := r.sharesOut = r.sharesIn

/-- The ratio as one decimal, rounded half-even to `places`. -/
def quotient (r : SplitRatio) (places : Nat) : Except ArithmeticFault Decimal := do
  return (← r.sharesOut.div r.sharesIn).round places

/-- Two splits, one after the other, as one. -/
def compound (r s : SplitRatio) : Except ArithmeticFault SplitRatio := do
  let sharesOut ← r.sharesOut.mul s.sharesOut
  let sharesIn ← r.sharesIn.mul s.sharesIn
  return ⟨sharesOut, sharesIn⟩

/-- Shares held before the split in terms of shares after it, not rounded to any places. -/
def apply (r : SplitRatio) (shares : Decimal) : Except ArithmeticFault Decimal := do
  (← shares.mul r.sharesOut).div r.sharesIn

/-- Shares held after the split in terms of shares before it, not rounded to any places. -/
def revert (r : SplitRatio) (shares : Decimal) : Except ArithmeticFault Decimal := do
  (← shares.mul r.sharesIn).div r.sharesOut

end SplitRatio

end Lotbook
