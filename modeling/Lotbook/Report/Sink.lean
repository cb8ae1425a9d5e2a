/-
# Lotbook.Report.Sink -- where events go

A sink takes the events of a session; it may keep them or drop them, but cannot refuse them.
-/
import Lotbook.Event

namespace Lotbook

/-- A destination of events. -/
inductive Sink where
  /-- Drops all events. -/
  | discard
  /-- Keeps all events, in the order they came. -/
  | collect (events : List Event)
  deriving DecidableEq

namespace Sink

/-- The events that were kept. -/
def events : Sink → List Event
  | .discard => []
  | .collect events => events

/-- Takes events in order. -/
def emit : Sink → List Event → Sink
  | .discard, _ => .discard
  | .collect kept, events => .collect (kept ++ events)

/-- Forgets the events that were kept. -/
def clear : Sink → Sink
  | .discard => .discard
  | .collect _ => .collect []

end Sink

end Lotbook
