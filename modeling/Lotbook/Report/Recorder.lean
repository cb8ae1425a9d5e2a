/-
# Lotbook.Report.Recorder -- recorders and what they report

A recorder takes in notices and gives its events when it is drained. A composite hands every notice
to its parts in turn and joins their events in the same order.
-/
import Lotbook.Report.Balances
import Lotbook.Report.ChangeSet
import Lotbook.Report.Positions

namespace Lotbook

/-- A recorder with what it has taken in. -/
inductive Recorder where
  | changes (s : ChangeSet)
  | balances (b : Balances)
  | positions (p : Positions)
  | composite (parts : List Recorder)

namespace Recorder

/-- Change set, balances and positions, in that order. -/
def standard : Recorder := .composite [.changes .empty, .balances .empty, .positions .empty]

/-- The parts of a composite; a simple recorder has none. -/
def parts : Recorder → List Recorder
  | .composite parts => parts
  | _ => []

mutual

/-- Takes in a notice. -/
def notify (context : ReportContext) (n : Notice) : Recorder → Except ArithmeticFault Recorder
  | .changes s => .ok (.changes (s.notify context n))
  | .balances b => do return .balances (← b.notify context n)
  | .positions p => do return .positions (← p.notify context n)
  | .composite parts => do return .composite (← notifyEach context n parts)

/-- Hands a notice to one recorder after the other. -/
def notifyEach (context : ReportContext) (n : Notice) :
    List Recorder → Except ArithmeticFault (List Recorder)
  | [] => .ok []
  | r :: rest => do
      let r ← notify context n r
      return r :: (← notifyEach context n rest)

end

/-- Takes in notices in order. -/
def notifyAll (context : ReportContext) (r : Recorder) (notices : List Notice) :
    Except ArithmeticFault Recorder :=
  notices.foldlM (fun r n => r.notify context n) r

mutual

/-- The events of everything taken in. -/
def events : Recorder → Except ArithmeticFault (List Event)
  | .changes s => .ok s.events
  | .balances b => b.events
  | .positions p => p.events
  | .composite parts => eventsOfEach parts

/-- The events of recorders, one after the other. -/
def eventsOfEach : List Recorder → Except ArithmeticFault (List Event)
  | [] => .ok []
  | r :: rest => do
      let events ← events r
      return events ++ (← eventsOfEach rest)

end

mutual

/-- The recorder before it took in anything. -/
def cleared : Recorder → Recorder
  | .changes _ => .changes .empty
  | .balances _ => .balances .empty
  | .positions _ => .positions .empty
  | .composite parts => .composite (clearedEach parts)

/-- Recorders before they took in anything. -/
def clearedEach : List Recorder → List Recorder
  | [] => []
  | r :: rest => cleared r :: clearedEach rest

end

/-- Gives the events and starts afresh. -/
def drain (r : Recorder) : Except ArithmeticFault (List Event × Recorder) := do
  return (← r.events, r.cleared)

end Recorder

end Lotbook
