/-
# Lotbook.Split.Boundary -- which splits fall into a holding period

A holding period runs from a purchase to a sale, or up to today when it is open. Whether a split
dated exactly on one of its ends is counted is a matter of the boundary rule.
-/
import Lotbook.Date
import Lotbook.Text.Named

namespace Lotbook

/-- Which ends of a holding period count a split dated on them. -/
inductive SplitBoundary where
  /-- Splits on either end are counted. -/
  | inclusive
  /-- A split on the start is already reflected in the shares. -/
  | excludeStart
  /-- A split on the end is not yet reflected in the shares. -/
  | excludeEnd
  /-- Only splits strictly inside are counted. -/
  | exclusive
  deriving DecidableEq

namespace SplitBoundary

instance : Inhabited SplitBoundary := ⟨.inclusive⟩

instance : Text.Named SplitBoundary where
  all := [.inclusive, .excludeStart, .excludeEnd, .exclusive]
  name
    | .inclusive => "inclusive"
    | .excludeStart => "excludeStart"
    | .excludeEnd => "excludeEnd"
    | .exclusive => "exclusive"

/-- Whether a split on the first day is counted. -/
def countsStart : SplitBoundary → Bool
  | .inclusive | .excludeEnd => true
  | .excludeStart | .exclusive => false

/-- Whether a split on the last day is counted. -/
def countsFinish : SplitBoundary → Bool
  | .inclusive | .excludeStart => true
  | .excludeEnd | .exclusive => false

/-- Whether a split on `date` falls into the period from `start` to `finish`; an open period has no
last day. -/
def contains (boundary : SplitBoundary) (date start : Date) (finish : Option Date) : Bool :=
  let afterStart := if boundary.countsStart then decide (start ≤ date) else decide (start < date)
  let beforeFinish :=
    match finish with
    | none => true
    | some finish => if boundary.countsFinish then decide (date ≤ finish) else decide (date < finish)
  afterStart && beforeFinish

end SplitBoundary

/-- A holding period and the rule for its ends. -/
structure HoldingPeriod where
  start : Date
  finish : Option Date
  boundary : SplitBoundary

/-- Whether a split on `date` counts within the period. -/
def HoldingPeriod.contains (period : HoldingPeriod) (date : Date) : Bool :=
  period.boundary.contains date period.start period.finish

end Lotbook
