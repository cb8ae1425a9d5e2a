/-
# Lotbook.Session.Journal -- what a session has touched

The journal has one record for each entity touched since the session began, in the order of first
touch: whether the entity was added in the session, the values its fields had before, and its last
state if it is gone. An entity that is removed and comes back under the same key counts as changed.
-/
import Lotbook.Report.Notice

namespace Lotbook

/-- What happened to one entity so far. -/
structure Touched where
  key : EntityKey
  added : Bool
  previous : Previous
  removed : Option Entity
  deriving DecidableEq

namespace Touched

/-- Nothing happened yet. -/
def start (key : EntityKey) : Touched := ⟨key, false, .empty, none⟩

/-- The values of a removed entity that matter if it comes back. -/
def valuesOf : Entity → List FieldValue
  | .lot l => [.purchaseShares l.purchaseShares, .adjustedShares l.adjustedShares]
  | .stockSplit _ split => [.ratio split.ratio]
  | _ => []

/-- The entity was added, or came back. -/
def add (t : Touched) : Touched :=
  match t.removed with
  | some removed =>
      if t.added then { t with removed := none }
      else { t with removed := none, previous := t.previous.recordAll (valuesOf removed) }
  | none => { t with added := true }

/-- A field changed; what an added entity held before is of no interest. -/
def change (t : Touched) (value : FieldValue) : Touched :=
  if t.added then t else { t with previous := t.previous.record value }

/-- A value is kept whether or not the entity was added in the session. -/
def keep (t : Touched) (value : FieldValue) : Touched :=
  { t with previous := t.previous.record value }

/-- The entity was removed. -/
def remove (t : Touched) (last : Entity) : Touched := { t with removed := some last }

@[simp] theorem key_add (t : Touched) : t.add.key = t.key := by
  rw [add]
  split
  · split <;> rfl
  · rfl

@[simp] theorem key_change (t : Touched) (value : FieldValue) : (t.change value).key = t.key := by
  rw [change]
  split <;> rfl

@[simp] theorem key_keep (t : Touched) (value : FieldValue) : (t.keep value).key = t.key := rfl

@[simp] theorem key_remove (t : Touched) (last : Entity) : (t.remove last).key = t.key := rfl

end Touched

/-- One record for each touched entity, in the order of first touch. -/
structure Journal where
  records : List Touched
  deriving DecidableEq

namespace Journal

/-- Nothing was touched. -/
def empty : Journal := ⟨[]⟩

/-- Revises the record of an entity, which starts one at the end if it has none. -/
def revised (f : Touched → Touched) (key : EntityKey) : List Touched → List Touched
  | [] => [f (.start key)]
  | t :: rest => if t.key = key then f t :: rest else t :: revised f key rest

/-- The touched entities, in the order of first touch. -/
def keys (j : Journal) : List EntityKey := j.records.map Touched.key

/-- Notes that an entity was added. -/
def add (j : Journal) (key : EntityKey) : Journal := ⟨revised Touched.add key j.records⟩

/-- Notes that entities were added, in order. -/
def addAll (j : Journal) (keys : List EntityKey) : Journal := keys.foldl add j

/-- Notes that a field of an entity changed. -/
def change (j : Journal) (key : EntityKey) (value : FieldValue) : Journal :=
  ⟨revised (fun t => t.change value) key j.records⟩

/-- Notes that an entity is gone. -/
def remove (j : Journal) (last : Entity) : Journal :=
  ⟨revised (fun t => t.remove last) last.key j.records⟩

/-- Notes that an entry is gone, and which transaction it belonged to. -/
def removeEntry (j : Journal) (last : Entry) (owner : Option TransactionId) : Journal :=
  ⟨revised (fun t => (t.keep (.transaction owner)).remove (.entry last)) (.entry last.id) j.records⟩

/-- Notes the lots whose shares as of the purchase date are not what they were before. -/
def noteLots (j : Journal) (before after : Ledger) : Journal :=
  before.lots.items.foldl
    (fun j lot =>
      match after.lot? lot.key with
      | some now =>
          if now.purchaseShares = lot.purchaseShares then j
          else j.change (.lot lot.key) (.purchaseShares lot.purchaseShares)
      | none => j) j

/-! ## Laws -/

/-- An entity that is touched again keeps its place; one touched for the first time comes last. -/
theorem map_key_revised {f : Touched → Touched} (hf : ∀ t, (f t).key = t.key) (key : EntityKey)
    (records : List Touched) :
    (revised f key records).map Touched.key =
      if key ∈ records.map Touched.key then records.map Touched.key
      else records.map Touched.key ++ [key] := by
  induction records with
  | nil => simp [revised, hf, Touched.start]
  | cons t rest ih =>
    rw [revised]
    by_cases h : t.key = key
    · simp [h, hf]
    · rw [if_neg h, List.map_cons, ih]
      by_cases hmem : key ∈ rest.map Touched.key
      · simp [hmem]
      · simp [hmem, Ne.symm h]

/-- No entity has two records. -/
theorem nodup_map_key_revised {f : Touched → Touched} (hf : ∀ t, (f t).key = t.key) (key : EntityKey)
    {records : List Touched} (h : (records.map Touched.key).Nodup) :
    ((revised f key records).map Touched.key).Nodup := by
  rw [map_key_revised hf]
  split
  · exact h
  · rename_i hnew
    refine List.nodup_append.mpr ⟨h, by simp, fun a ha b hb hab => ?_⟩
    obtain rfl := List.mem_singleton.mp hb
    exact hnew (hab ▸ ha)

end Journal

end Lotbook
