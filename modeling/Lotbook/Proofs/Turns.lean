/-
# Lotbook.Proofs.Turns -- what a journal keeps about one entity

Under one key there is an entity in the ledger or not, and a record in the journal or not; both
together are the sight of the key (`Sight`). An edit gives a key at most one turn: an entity is added
or comes back, its fields change, or it is removed (`Turn`). A sight is faithful to what was there
when the session began if the record says no more and no less than how that differs from what is
there now (`Sight.Faithful`), and a turn keeps it so (`Sight.Faithful.turn`).
-/
import Lotbook.Proofs.Facts
import Lotbook.Session.Journal
import Mathlib.Data.List.Basic
import Mathlib.Data.List.Nodup

namespace Lotbook

/-- What a removed entity leaves for its return are all of its fields, if it can return. -/
theorem Touched.valuesOf_of_returns {e : Entity} (h : e.key.Returns) :
    Touched.valuesOf e = e.facts := by
  cases e with
  | transaction t => exact h.elim
  | entry e => exact h.elim
  | lot lot => rfl
  | stockSplit s split => rfl
  | other key => rfl

/-! ## What is recorded of fields -/

namespace Previous

/-- Of each field only the first value is kept. -/
theorem mem_record {p : Previous} {v w : FieldValue} :
    w ∈ (p.record v).values ↔ w ∈ p.values ∨ w = v ∧ v.field ∉ p.fields := by
  rw [record]
  split
  · rename_i h
    have hknown : v.field ∈ p.fields := by
      obtain ⟨known, hmem, hfield⟩ := List.any_eq_true.mp h
      exact List.mem_map.mpr ⟨known, hmem, by simpa using hfield⟩
    simp [hknown]
  · rename_i h
    have hnew : v.field ∉ p.fields := by
      intro hmem
      obtain ⟨known, hmem, hfield⟩ := List.mem_map.mp hmem
      exact h (List.any_eq_true.mpr ⟨known, hmem, by simpa using hfield⟩)
    simp [hnew]

theorem mem_recordAll_of_mem {p : Previous} {vs : List FieldValue} {w : FieldValue}
    (h : w ∈ p.values) : w ∈ (p.recordAll vs).values := by
  induction vs generalizing p with
  | nil => exact h
  | cons v vs ih => exact ih (mem_record.mpr (.inl h))

/-- A value that was not recorded before belongs to a field that was not known. -/
theorem mem_or_of_mem_recordAll {p : Previous} {vs : List FieldValue} {w : FieldValue}
    (h : w ∈ (p.recordAll vs).values) : w ∈ p.values ∨ w ∈ vs ∧ w.field ∉ p.fields := by
  induction vs generalizing p with
  | nil => exact .inl h
  | cons v vs ih =>
    rcases ih h with h | ⟨hw, hnew⟩
    · rcases mem_record.mp h with h | ⟨rfl, hnew⟩
      · exact .inl h
      · exact .inr ⟨List.mem_cons_self, hnew⟩
    · refine .inr ⟨List.mem_cons_of_mem v hw, fun hknown => hnew ?_⟩
      obtain ⟨known, hmem, hfield⟩ := List.mem_map.mp hknown
      exact List.mem_map.mpr ⟨known, mem_record.mpr (.inl hmem), hfield⟩

/-- After recording a value, its field is known. -/
theorem field_mem_recordAll {p : Previous} {vs : List FieldValue} {v : FieldValue} (h : v ∈ vs) :
    v.field ∈ (p.recordAll vs).fields := by
  induction vs generalizing p with
  | nil => cases h
  | cons w vs ih =>
    rcases List.mem_cons.mp h with rfl | h
    · by_cases hknown : v.field ∈ p.fields
      · obtain ⟨known, hmem, hfield⟩ := List.mem_map.mp hknown
        exact List.mem_map.mpr
          ⟨known, mem_recordAll_of_mem (p := p.record v) (mem_record.mpr (.inl hmem)), hfield⟩
      · exact List.mem_map.mpr
          ⟨v, mem_recordAll_of_mem (p := p.record v) (mem_record.mpr (.inr ⟨rfl, hknown⟩)), rfl⟩
    · exact ih h

/-- Values of fields that are known already are not recorded. -/
theorem recordAll_of_known {p : Previous} {vs : List FieldValue} (h : ∀ v ∈ vs, v.field ∈ p.fields) :
    p.recordAll vs = p := by
  induction vs with
  | nil => rfl
  | cons v vs ih =>
    obtain ⟨known, hmem, hfield⟩ := List.mem_map.mp (h v List.mem_cons_self)
    rw [recordAll, List.foldl_cons, record_of_mem hmem hfield]
    exact ih fun w hw => h w (List.mem_cons_of_mem v hw)

/-- What is recorded are values from before, and among them all that are not there any more. -/
structure Tells (p : Previous) (before now : List FieldValue) : Prop where
  of_before : ∀ v ∈ p.values, v ∈ before
  of_change : ∀ v ∈ before, v ∈ now ∨ v ∈ p.values

/-- Two values of one field are the same if the fields of the list are told apart. -/
theorem eq_of_field_eq {facts : List FieldValue} (h : (facts.map FieldValue.field).Nodup)
    {v w : FieldValue} (hv : v ∈ facts) (hw : w ∈ facts) (hfield : v.field = w.field) : v = w :=
  List.inj_on_of_nodup_map h hv hw hfield

/-- Recording values that are there now, among them all that are going to change, leaves nothing
out; a value of a field that is not known yet is still the one from before. -/
theorem Tells.recordAll {p : Previous} {before now next vs : List FieldValue} (h : p.Tells before now)
    (hfields : before.map FieldValue.field = now.map FieldValue.field)
    (hnodup : (now.map FieldValue.field).Nodup) (hknown : ∀ v ∈ vs, v ∈ now)
    (hchange : ∀ v ∈ now, v ∈ next ∨ v ∈ vs) : (p.recordAll vs).Tells before next := by
  have hbefore : ∀ v ∈ (p.recordAll vs).values, v ∈ before := by
    intro v hv
    rcases mem_or_of_mem_recordAll hv with hv | ⟨hv, hnew⟩
    · exact h.of_before v hv
    · have hfield : v.field ∈ before.map FieldValue.field :=
        hfields ▸ List.mem_map.mpr ⟨v, hknown v hv, rfl⟩
      obtain ⟨w, hw, hwv⟩ := List.mem_map.mp hfield
      rcases h.of_change w hw with hw' | hw'
      · exact eq_of_field_eq hnodup hw' (hknown v hv) hwv ▸ hw
      · exact absurd (List.mem_map.mpr ⟨w, hw', hwv⟩) hnew
  refine ⟨hbefore, fun v hv => ?_⟩
  rcases h.of_change v hv with hnow | hp
  · rcases hchange v hnow with hnext | hvs
    · exact .inl hnext
    · obtain ⟨w, hw, hfield⟩ := List.mem_map.mp (field_mem_recordAll (p := p) hvs)
      have hwv : w = v := eq_of_field_eq (hfields ▸ hnodup) (hbefore w hw) hv hfield
      exact .inr (hwv ▸ hw)
  · exact .inr (mem_recordAll_of_mem hp)

end Previous

/-! ## Turns -/

/-- The fields of the entity under a key, if it is there, and its record, if there is one. -/
structure Sight where
  facts : Option (List FieldValue)
  record : Option Touched

/-- What one edit does under a key; `issued` is the last number that was given before. Fields change
without a record only where a `lapse` is allowed. -/
inductive Turn (lapse : Prop) (issued : Nat) (key : EntityKey) : Sight → Sight → Prop
  | untouched (v : Sight) : Turn lapse issued key v v
  | overlooked {record : Option Touched} {facts next : List FieldValue} (hlapse : lapse)
      (hfields : next.map FieldValue.field = facts.map FieldValue.field) :
      Turn lapse issued key ⟨some facts, record⟩ ⟨some next, record⟩
  | added {record : Option Touched} {facts : List FieldValue}
      (hfields : facts.map FieldValue.field = key.fields) (hnew : key.Returns ∨ key.IsNew issued) :
      Turn lapse issued key ⟨none, record⟩ ⟨some facts, some (record.getD (.start key)).add⟩
  | changed {record : Option Touched} {facts next : List FieldValue} (values : List FieldValue)
      (hfields : next.map FieldValue.field = key.fields) (hknown : ∀ v ∈ values, v ∈ facts)
      (hchange : ∀ v ∈ facts, v ∈ next ∨ v ∈ values) :
      Turn lapse issued key ⟨some facts, record⟩
        ⟨some next, some (values.foldl Touched.change (record.getD (.start key)))⟩
  | removed {record : Option Touched} {last : Entity} (hkey : last.key = key)
      (hentry : key.kind ≠ .entry) :
      Turn lapse issued key ⟨some last.facts, record⟩
        ⟨none, some ((record.getD (.start key)).remove last)⟩
  | detached {record : Option Touched} {e : Entry} (hkey : .entry e.id = key) :
      Turn lapse issued key ⟨some e.facts, record⟩
        ⟨none, some (((record.getD (.start key)).keep (.transaction e.transaction)).remove
          (.entry { e with transaction := none }))⟩

namespace Turn

variable {lapse : Prop} {issued : Nat} {key : EntityKey} {v w : Sight}

theorem of_eq (hfacts : w.facts = v.facts) (hrecord : w.record = v.record) :
    Turn lapse issued key v w := by
  obtain rfl : w = v := by cases v; cases w; cases hfacts; cases hrecord; rfl
  exact .untouched w

theorem of_overlooked {facts next : List FieldValue} (hlapse : lapse) (hv : v.facts = some facts)
    (hw : w.facts = some next) (hrecord : w.record = v.record)
    (hfields : next.map FieldValue.field = facts.map FieldValue.field) : Turn lapse issued key v w := by
  cases v; cases w; cases hv; cases hw; cases hrecord
  exact .overlooked hlapse hfields

theorem of_added {facts : List FieldValue} (hv : v.facts = none) (hw : w.facts = some facts)
    (hrecord : w.record = some (v.record.getD (.start key)).add)
    (hfields : facts.map FieldValue.field = key.fields) (hnew : key.Returns ∨ key.IsNew issued) :
    Turn lapse issued key v w := by
  cases v; cases w; cases hv; cases hw; cases hrecord
  exact .added hfields hnew

theorem of_changed {facts next : List FieldValue} (values : List FieldValue)
    (hv : v.facts = some facts) (hw : w.facts = some next)
    (hrecord : w.record = some (values.foldl Touched.change (v.record.getD (.start key))))
    (hfields : next.map FieldValue.field = key.fields) (hknown : ∀ x ∈ values, x ∈ facts)
    (hchange : ∀ x ∈ facts, x ∈ next ∨ x ∈ values) : Turn lapse issued key v w := by
  cases v; cases w; cases hv; cases hw; cases hrecord
  exact .changed values hfields hknown hchange

/-- One field is set, and the value that it had is noted. -/
theorem of_set {facts next : List FieldValue} {value : FieldValue} (hv : v.facts = some facts)
    (hw : w.facts = some next)
    (hrecord : w.record = some ((v.record.getD (.start key)).change value))
    (hfields : next.map FieldValue.field = key.fields) (hvalue : value ∈ facts)
    (hchange : ∀ x ∈ facts, x ∈ next ∨ x = value) : Turn lapse issued key v w :=
  of_changed [value] hv hw hrecord hfields (fun _ hx => List.mem_singleton.mp hx ▸ hvalue)
    fun x hx => (hchange x hx).imp_right List.mem_singleton.mpr

theorem of_removed (last : Entity) (hkey : last.key = key) (hentry : key.kind ≠ .entry)
    (hv : v.facts = some last.facts)
    (hw : w.facts = none) (hrecord : w.record = some ((v.record.getD (.start key)).remove last)) :
    Turn lapse issued key v w := by
  cases v; cases w; cases hv; cases hw; cases hrecord
  exact .removed hkey hentry

theorem of_detached {e : Entry} (hkey : .entry e.id = key) (hv : v.facts = some e.facts)
    (hw : w.facts = none) (hrecord : w.record = some
      (((v.record.getD (.start key)).keep (.transaction e.transaction)).remove
        (.entry { e with transaction := none }))) : Turn lapse issued key v w := by
  cases v; cases w; cases hv; cases hw; cases hrecord
  exact .detached hkey

end Turn

/-! ## Faithful records -/

namespace Touched

/-- The fields of an entity now, or else when it was removed. -/
def lastFacts (t : Touched) (now : Option (List FieldValue)) : List FieldValue :=
  now.getD ((t.removed.map Entity.facts).getD [])

/-- Whether a record says how what there was under its key `before` differs from what is there now;
after a `lapse` it says so only of what came and went. -/
structure Faithful (lapse : Prop) (t : Touched) (key : EntityKey)
    (before now : Option (List FieldValue)) : Prop where
  key_eq : t.key = key
  added_eq : t.added = before.isNone
  removed_eq : t.removed.isSome = now.isNone
  removed_key : ∀ e, t.removed = some e → e.key = key
  /-- A removed entry is kept without its owner. -/
  detached : ∀ e, t.removed = some (.entry e) → e.transaction = none
  fields_eq : (t.lastFacts now).map FieldValue.field = key.fields
  tells : ¬ lapse → ∀ facts, before = some facts → t.previous.Tells facts (t.lastFacts now)
  /-- Of an entity that was added, nothing is recorded but what it belonged to when it was removed. -/
  of_added : before = none → ∀ v ∈ t.previous.values, v.field = .transaction

theorem foldl_change_of_added {t : Touched} (h : t.added = true) (vs : List FieldValue) :
    vs.foldl change t = t := by
  induction vs with
  | nil => rfl
  | cons v vs ih => rw [List.foldl_cons, change, if_pos h, ih]

theorem foldl_change_of_not_added {t : Touched} (h : t.added = false) (vs : List FieldValue) :
    vs.foldl change t = { t with previous := t.previous.recordAll vs } := by
  induction vs generalizing t with
  | nil => rfl
  | cons v vs ih =>
    rw [List.foldl_cons, change, if_neg (by simp [h])]
    exact ih h

end Touched

/-- Whether the record under a key, or that there is none, agrees with what there was `before`. -/
def Sight.Faithful (lapse : Prop) (v : Sight) (key : EntityKey) (before : Option (List FieldValue)) :
    Prop :=
  match v.record with
  | none => v.facts.map (List.map FieldValue.field) = before.map (List.map FieldValue.field) ∧
      (¬ lapse → v.facts = before)
  | some t => t.Faithful lapse key before v.facts

section Turns

variable {lapse : Prop} {key : EntityKey} {before : Option (List FieldValue)}

/-- Nothing happened yet under a key whose entity is as it was before. -/
theorem Touched.faithful_start {facts b : List FieldValue}
    (hfields : facts.map FieldValue.field = key.fields) (hsame : ¬ lapse → facts = b) :
    (Touched.start key).Faithful lapse key (some b) (some facts) where
  key_eq := rfl
  added_eq := rfl
  removed_eq := rfl
  removed_key _ he := by cases he
  detached _ he := by cases he
  fields_eq := hfields
  tells hquiet _ h :=
    ⟨fun _ hv => (List.not_mem_nil hv).elim,
      fun _ hv => .inl ((hsame hquiet).trans (Option.some.inj h) ▸ hv)⟩
  of_added h := by cases h

/-- Before its entity is touched again, the record under a key is faithful, if it is not the first. -/
theorem Sight.Faithful.touched {facts : List FieldValue} {record : Option Touched}
    (h : Sight.Faithful lapse ⟨some facts, record⟩ key before)
    (hbefore : ∀ b, before = some b → b.map FieldValue.field = key.fields) :
    (record.getD (.start key)).Faithful lapse key before (some facts) := by
  cases record with
  | some t => exact h
  | none =>
    obtain ⟨hfields, hsame⟩ := h
    obtain ⟨b, rfl, hb⟩ := Option.map_eq_some_iff.mp hfields.symm
    exact Touched.faithful_start (hb.symm.trans (hbefore b rfl)) fun hquiet =>
      Option.some.inj (hsame hquiet)

namespace Touched.Faithful

variable {t : Touched} {facts : List FieldValue}

/-- What is recorded on top of a faithful record tells of the change as well. -/
theorem tells_recordAll {now : Option (List FieldValue)} {next b : List FieldValue}
    (h : t.Faithful lapse key before now) (vs : List FieldValue) (hquiet : ¬ lapse)
    (hb : b.map FieldValue.field = key.fields) (heq : before = some b)
    (hknown : ∀ v ∈ vs, v ∈ t.lastFacts now)
    (hchange : ∀ v ∈ t.lastFacts now, v ∈ next ∨ v ∈ vs) :
    (t.previous.recordAll vs).Tells b next := by
  have hnodup : ((t.lastFacts now).map FieldValue.field).Nodup := h.fields_eq ▸ key.nodup_fields
  exact (h.tells hquiet b heq).recordAll (hb.trans h.fields_eq.symm) hnodup hknown hchange

/-- Fields that change are recorded, unless the entity was added: of such an entity nothing is known from
before. -/
theorem change {next vs : List FieldValue} (h : t.Faithful lapse key before (some facts))
    (hbefore : ∀ b, before = some b → b.map FieldValue.field = key.fields)
    (hfields : next.map FieldValue.field = key.fields) (hknown : ∀ v ∈ vs, v ∈ facts)
    (hchange : ∀ v ∈ facts, v ∈ next ∨ v ∈ vs) :
    (vs.foldl Touched.change t).Faithful lapse key before (some next) := by
  cases hadded : t.added with
  | true =>
    have hnone : before = none := by simpa [hadded] using h.added_eq.symm
    rw [foldl_change_of_added hadded]
    exact { h with fields_eq := hfields, tells := by simp [hnone] }
  | false =>
    have hsome : before.isNone = false := hadded ▸ h.added_eq.symm
    rw [foldl_change_of_not_added hadded]
    exact { h with
      fields_eq := hfields
      tells := fun hquiet b hb => h.tells_recordAll _ hquiet (hbefore b hb) hb hknown hchange
      of_added := fun hnone => by simp [hnone] at hsome }

/-- An entity that comes back is recorded as if all the fields it left with had changed. -/
theorem add (h : t.Faithful lapse key before none) (hreturns : key.Returns)
    (hbefore : ∀ b, before = some b → b.map FieldValue.field = key.fields)
    (hfields : facts.map FieldValue.field = key.fields) :
    t.add.Faithful lapse key before (some facts) := by
  obtain ⟨last, hlast⟩ := Option.isSome_iff_exists.mp (h.removed_eq.trans rfl)
  have hvalues : valuesOf last = t.lastFacts none := by
    have : key = last.key := (h.removed_key last hlast).symm
    rw [valuesOf_of_returns (this ▸ hreturns), lastFacts, hlast]
    rfl
  cases hadded : t.added with
  | true =>
    have hnone : before = none := by simpa [hadded] using h.added_eq.symm
    simp only [Touched.add, hlast, hadded, if_true]
    exact { h with
      added_eq := hadded ▸ h.added_eq
      removed_eq := rfl
      removed_key _ he := by cases he
      detached _ he := by cases he
      fields_eq := hfields
      tells := by simp [hnone] }
  | false =>
    have hsome : before.isNone = false := hadded ▸ h.added_eq.symm
    simp only [Touched.add, hlast, hadded, Bool.false_eq_true, if_false]
    exact {
      key_eq := h.key_eq
      added_eq := hadded ▸ h.added_eq
      removed_eq := rfl
      removed_key _ he := by cases he
      detached _ he := by cases he
      fields_eq := hfields
      tells := fun hquiet b hb =>
        h.tells_recordAll _ hquiet (hbefore b hb) hb (fun v hv => hvalues ▸ hv)
          fun v hv => .inr (hvalues ▸ hv)
      of_added := fun hnone => by simp [hnone] at hsome }

/-- Fields that changed without a record leave what is known of coming and going as it is. -/
theorem overlook {next : List FieldValue} (h : t.Faithful lapse key before (some facts))
    (hlapse : lapse) (hfields : next.map FieldValue.field = facts.map FieldValue.field) :
    t.Faithful lapse key before (some next) :=
  { h with fields_eq := hfields.trans h.fields_eq, tells := fun hquiet => absurd hlapse hquiet }

/-- An entity that is removed is kept in its record as it was last. -/
theorem remove {last : Entity} (h : t.Faithful lapse key before (some last.facts))
    (hkey : last.key = key) (hentry : key.kind ≠ .entry) :
    (t.remove last).Faithful lapse key before none where
  key_eq := h.key_eq
  added_eq := h.added_eq
  removed_eq := rfl
  removed_key _ he := Option.some.inj he ▸ hkey
  detached e he := by
    obtain rfl := Option.some.inj he
    exact absurd (congrArg EntityKey.kind hkey).symm hentry
  fields_eq := h.fields_eq
  tells := h.tells
  of_added := h.of_added

/-- An entry that is removed loses its owner, which is recorded. -/
theorem detach {e : Entry} (h : t.Faithful lapse key before (some e.facts))
    (hbefore : ∀ b, before = some b → b.map FieldValue.field = key.fields)
    (hkey : .entry e.id = key) :
    ((t.keep (.transaction e.transaction)).remove (.entry { e with transaction := none })).Faithful
      lapse key before none where
  key_eq := h.key_eq
  added_eq := h.added_eq
  removed_eq := rfl
  removed_key _ he := by
    obtain rfl := Option.some.inj he
    exact hkey
  detached _ he := by
    obtain rfl := Entity.entry.inj (Option.some.inj he)
    rfl
  fields_eq := h.fields_eq
  tells hquiet b hb := by
    refine h.tells_recordAll [.transaction e.transaction] hquiet (hbefore b hb) hb ?_ ?_
    · intro v hv
      obtain rfl := List.mem_singleton.mp hv
      exact List.mem_cons_self
    · intro v hv
      rcases List.mem_cons.mp hv with rfl | hv
      · exact .inr List.mem_cons_self
      · exact .inl (List.mem_cons_of_mem _ hv)
  of_added hnone v hv := by
    rcases Previous.mem_record.mp hv with hv | ⟨rfl, -⟩
    · exact h.of_added hnone v hv
    · rfl

end Touched.Faithful

/-- A turn keeps the record under a key faithful; numbers that were not given yet have no record. -/
theorem Sight.Faithful.turn {issued : Nat} {v w : Sight} (h : v.Faithful lapse key before)
    (hbefore : ∀ b, before = some b → b.map FieldValue.field = key.fields)
    (hnew : key.IsNew issued → v.record = none) (hturn : Turn lapse issued key v w) :
    w.Faithful lapse key before := by
  cases hturn with
  | untouched => exact h
  | @overlooked record facts next hlapse hfields =>
    cases record with
    | none =>
      exact ⟨(congrArg some hfields).trans h.1, fun hquiet => absurd hlapse hquiet⟩
    | some t => exact Touched.Faithful.overlook h hlapse hfields
  | @added record facts hfields hadd =>
    cases record with
    | none =>
      obtain rfl : before = none := Option.map_eq_none_iff.mp h.1.symm
      exact {
        key_eq := rfl, added_eq := rfl, removed_eq := rfl, removed_key := fun _ he => by cases he
        detached := fun _ he => by cases he
        fields_eq := hfields, tells := fun _ _ hb => by cases hb
        of_added := fun _ _ hv => (List.not_mem_nil hv).elim }
    | some t =>
      have hreturns : key.Returns := hadd.resolve_right fun hn => by simpa using hnew hn
      exact Touched.Faithful.add h hreturns hbefore hfields
  | changed values hfields hknown hchange =>
    exact (h.touched hbefore).change hbefore hfields hknown hchange
  | removed hkey hentry => exact (h.touched hbefore).remove hkey hentry
  | detached hkey => exact (h.touched hbefore).detach hbefore hkey

end Turns

end Lotbook
