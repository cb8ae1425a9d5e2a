/-
# Lotbook.Session.Completion -- reporting a session

When a session completes, every touched entity is reported once, with the values its fields had when
the session began: entries first, then lots, then transactions, then everything else, each in the
order of first touch. An entity that was added and is gone again is reported as both. Removed
transactions are shown as they were when the session began, so that what is taken off with them is
taken off where it was counted.
-/
import Lotbook.Report.Recorder
import Lotbook.Report.Sink
import Lotbook.Session.Basic

namespace Lotbook

namespace Touched

/-- A transaction with the account, the security and the date it had before. -/
def restored (previous : Previous) (t : Transaction) : Transaction :=
  { t with
    account := previous.account?.getD t.account
    security := previous.security?.getD t.security
    date := previous.date?.getD t.date }

/-- The last state of an entity that is gone. -/
def lastState? (t : Touched) : Option Entity :=
  t.removed.map fun
    | .transaction x => .transaction (restored t.previous x)
    | e => e

/-- An entity that was added and is gone, as it is reported as added: an entry is shown with the
transaction it belonged to. -/
def asAdded (t : Touched) : Entity → Entity
  | .entry e => .entry { e with transaction := t.previous.transaction? }
  | e => e

/-- The entity as it is in the ledger; of those that are not looked into, only the identity. -/
def live? (l : Ledger) : EntityKey → Option Entity
  | .transaction id => (l.transaction? id).map .transaction
  | .entry id => (l.entry? id).map .entry
  | .lot key => (l.lot? key).map .lot
  | .stockSplit s date => ((l.security? s).bind fun s => s.history.on? date).map (.stockSplit s)
  | key => some (.other key)

/-- The notices about one entity. -/
def notices (l : Ledger) (t : Touched) : List Notice :=
  match t.lastState? with
  | some e => (if t.added then [.added (t.asAdded e)] else []) ++ [.deleted e t.previous]
  | none =>
      match live? l t.key with
      | some e => if t.added then [.added e] else [.changed e t.previous]
      | none => []

/-- The rank of an entity in the report. -/
def reportRank (t : Touched) : Nat :=
  match t.key with
  | .entry _ => 0
  | .lot _ => 1
  | .transaction _ => 2
  | _ => 3

end Touched

namespace Session

/-- The touched entities in the order in which they are reported. -/
def reportOrder (s : Session) : List Touched :=
  [0, 1, 2, 3].flatMap fun r => s.journal.records.filter fun t => t.reportRank = r

/-- Everything that is reported about the session. -/
def notices (s : Session) : List Notice := s.reportOrder.flatMap (Touched.notices s.ledger)

/-- The transactions removed in the session, as they were when it began. -/
def removedTransactions (s : Session) : Register Transaction :=
  .ofList (s.journal.records.filterMap fun t =>
    match t.lastState? with
    | some (.transaction x) => some x
    | _ => none)

/-- What recorders see of the session. -/
def context (s : Session) : ReportContext := ⟨s.ledger, s.removedTransactions⟩

/-- Reports the session to a recorder and gives its events. -/
def complete (s : Session) (recorder : Recorder) : Except ArithmeticFault (List Event) := do
  (← recorder.notifyAll s.context s.notices).events

/-- Reports the session to a recorder and hands the events to a sink, unless there are none. Gives
their number. -/
def completeInto (s : Session) (recorder : Recorder) (sink : Sink) :
    Except ArithmeticFault (Nat × Sink) := do
  let events ← s.complete recorder
  return (events.length, if events.isEmpty then sink else sink.emit events)

end Session

end Lotbook
