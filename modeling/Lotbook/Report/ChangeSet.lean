/-
# Lotbook.Report.ChangeSet -- which entities were added, changed and deleted

Three sets of keys are collected. An entry that is touched in any way marks its transaction as
changed. What is reported as deleted is not reported as changed as well; added and deleted do not
exclude each other.
-/
import Lotbook.Report.Notice

namespace Lotbook

/-- The keys reported so far. -/
structure ChangeSet where
  added : Register EntityKey
  changed : Register EntityKey
  deleted : Register EntityKey
  deriving DecidableEq

namespace ChangeSet

/-- Nothing was reported. -/
def empty : ChangeSet := ⟨.empty, .empty, .empty⟩

/-- The key of the transaction that a touched entry marks as changed. -/
def rollUp? (context : ReportContext) (n : Notice) : Option EntityKey :=
  match n.entity with
  | .entry e => (context.ownerOf? e n.previous).map fun t => .transaction t.id
  | _ => none

/-- Takes in a notice. -/
def notify (context : ReportContext) (s : ChangeSet) (n : Notice) : ChangeSet :=
  let s :=
    match n with
    | .added e => { s with added := s.added.put e.key }
    | .changed e _ => { s with changed := s.changed.put e.key }
    | .deleted e _ => { s with deleted := s.deleted.put e.key }
  match rollUp? context n with
  | some key => { s with changed := s.changed.put key }
  | none => s

/-- One event for each kind of entity among the keys. -/
def eventsOf (kind : ChangeKind) (keys : List EntityKey) : List Event :=
  Text.Named.all.filterMap fun entities =>
    match keys.filter fun key => key.kind = entities with
    | [] => none
    | keys => some (.entitiesChanged entities kind keys)

/-- The keys reported as changed and not as deleted. -/
def onlyChanged (s : ChangeSet) : List EntityKey :=
  s.changed.items.filter fun key => !s.deleted.contains key

/-- The events, additions first and deletions last. -/
def events (s : ChangeSet) : List Event :=
  eventsOf .added s.added.items ++ eventsOf .changed s.onlyChanged
    ++ eventsOf .deleted s.deleted.items

end ChangeSet

end Lotbook
