/-
# Lotbook.Split.History -- the splits of one security

The splits recorded for a security, at most one a day, and the conversion of share counts across
them. Applying and reverting round half-even; covered shares are rounded down and covering shares up,
so that capacity is never overstated and demand never understated.
-/
import Lotbook.Register
import Lotbook.Split.Boundary
import Lotbook.Split.Ratio

namespace Lotbook

/-- A split that takes effect on a day. -/
structure StockSplit where
  date : Date
  ratio : SplitRatio
  deriving DecidableEq

instance : Keyed StockSplit Date := ⟨StockSplit.date⟩

/-- The splits of a security by date. -/
structure SplitHistory where
  security : SecurityId
  splits : Register StockSplit
  deriving DecidableEq

namespace SplitHistory

/-- The places kept on share counts after splits, enough to find the counts before them again. -/
def adjustedPlaces : Nat := 16

/-- The history of a security that was never split. -/
def new (security : SecurityId) : SplitHistory := ⟨security, .empty⟩

/-- The split on a day. -/
def on? (h : SplitHistory) (date : Date) : Option StockSplit := h.splits.get? date

/-- Records a split, unless there is one on that day. -/
def insert (h : SplitHistory) (split : StockSplit) : Except SplitError SplitHistory :=
  match h.on? split.date with
  | some _ => .error (.duplicateDate h.security split.date)
  | none => .ok { h with splits := h.splits.put split }

/-- Takes out the split on a day. -/
def remove (h : SplitHistory) (date : Date) : SplitHistory :=
  { h with splits := h.splits.erase date }

/-! ## Share counts across splits -/

/-- The compound of all splits within a period, earliest first. -/
def ratioOver (h : SplitHistory) (period : HoldingPeriod) : Except ArithmeticFault SplitRatio :=
  (h.splits.items.filter fun split => period.contains split.date).foldlM
    (fun ratio split => ratio.compound split.ratio) .identity

/-- Converts shares by the ratio over a period; a ratio that changes nothing does not round. -/
def convert (h : SplitHistory) (period : HoldingPeriod) (shares : Decimal)
    (conversion : SplitRatio → Decimal → Except ArithmeticFault Decimal) (direction : Rounding)
    (places : Nat) : Except ArithmeticFault Decimal := do
  let ratio ← h.ratioOver period
  if ratio.isIdentity then return shares
  return (← conversion ratio shares).roundTo direction places

/-- Shares held at the start in terms of shares held at the end. -/
def apply (h : SplitHistory) (period : HoldingPeriod) (shares : Decimal) :
    Except ArithmeticFault Decimal :=
  h.convert period shares SplitRatio.apply .halfEven adjustedPlaces

/-- Shares held at the end in terms of shares held at the start, rounded to `places`. -/
def revert (h : SplitHistory) (period : HoldingPeriod) (shares : Decimal) (places : Nat) :
    Except ArithmeticFault Decimal :=
  h.convert period shares SplitRatio.revert .halfEven places

/-- The most shares held at the end that `shares` held at the start can back. -/
def covered (h : SplitHistory) (period : HoldingPeriod) (shares : Decimal) :
    Except ArithmeticFault Decimal :=
  h.convert period shares SplitRatio.apply .down adjustedPlaces

/-- The fewest shares at `places` held at the start that back `shares` held at the end. -/
def covering (h : SplitHistory) (period : HoldingPeriod) (shares : Decimal) (places : Nat) :
    Except ArithmeticFault Decimal :=
  h.convert period shares SplitRatio.revert .up places

end SplitHistory

end Lotbook
