/-
# Lotbook.Report.Notice -- what recorders are told

A notice hands an entity to a recorder and says what happened to it. Together with the notices a
recorder sees the ledger, and the transactions that were removed from it.
-/
import Lotbook.Event
import Lotbook.Ledger.Basic
import Lotbook.Report.Field

namespace Lotbook

/-- An entity as recorders see it. -/
inductive Entity where
  | transaction (t : Transaction)
  | entry (e : Entry)
  | lot (l : Lot)
  | stockSplit (security : SecurityId) (split : StockSplit)
  /-- An entity of which only the identity matters. -/
  | other (key : EntityKey)
  deriving DecidableEq

/-- The identity of an entity. -/
def Entity.key : Entity → EntityKey
  | .transaction t => .transaction t.id
  | .entry e => .entry e.id
  | .lot l => .lot l.key
  | .stockSplit s split => .stockSplit s split.date
  | .other key => key

/-- Something that happened to an entity. -/
inductive Notice where
  | added (entity : Entity)
  | changed (entity : Entity) (previous : Previous)
  | deleted (entity : Entity) (previous : Previous)
  deriving DecidableEq

namespace Notice

/-- The entity that the notice is about. -/
def entity : Notice → Entity
  | .added e | .changed e _ | .deleted e _ => e

/-- What is known of the fields before. -/
def previous : Notice → Previous
  | .added _ => .empty
  | .changed _ p | .deleted _ p => p

/-- What happened. -/
def kind : Notice → ChangeKind
  | .added _ => .added
  | .changed _ _ => .changed
  | .deleted _ _ => .deleted

end Notice

/-- The ledger as recorders see it, and the transactions removed from it. -/
structure ReportContext where
  ledger : Ledger
  removed : Register Transaction

namespace ReportContext

/-- A transaction of the ledger, or else a removed one. -/
def transaction? (c : ReportContext) (id : TransactionId) : Option Transaction :=
  (c.ledger.transaction? id).or (c.removed.get? id)

/-- The transaction that an entry belongs to, or did before. -/
def ownerOf? (c : ReportContext) (e : Entry) (previous : Previous) : Option Transaction :=
  (e.transaction.or previous.transaction?).bind c.transaction?

end ReportContext

end Lotbook
