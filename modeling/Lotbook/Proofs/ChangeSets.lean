/-
# Lotbook.Proofs.ChangeSets -- what a change set reports of the notices that it took in

A change set names, for each kind of change and of entity, the keys that the change is due for
(`ChangeSet.Due`): what was said to be added, changed or deleted, and with the changed ones the
transactions of all entries that were spoken of, but none that was deleted as well. Which notice comes
first makes no difference, since each of the three sets only grows and the deleted keys are taken off
the changed ones when the events are drawn up (`ChangeSet.changes_exact`).
-/
import Lotbook.Proofs.Changes
import Lotbook.Report.Recorder

namespace Lotbook

/-! ## What is due -/

/-- Whether one of the notices says of an entity that this happened to it. -/
def Notice.Says (notices : List Notice) (kind : ChangeKind) (key : EntityKey) : Prop :=
  ∃ n ∈ notices, n.kind = kind ∧ n.entity.key = key

/-- Whether a notice is about an entry of a transaction that can be found, in the ledger or among the
removed ones. For an entry that has no transaction it is the one that it had. -/
def Notice.RollsUp (context : ReportContext) (n : Notice) (id : TransactionId) : Prop :=
  ∃ e, n.entity = .entry e ∧
    (e.transaction = some id ∨ e.transaction = none ∧ n.previous.transaction? = some id) ∧
    ((∃ t, context.ledger.transaction? id = some t) ∨ ∃ t, context.removed.get? id = some t)

namespace ChangeSet

variable {context : ReportContext} {notices notices' : List Notice} {n : Notice} {s : ChangeSet}
  {kind : ChangeKind} {key : EntityKey}

/-- Whether a key is to be reported with a kind of change. -/
def Due (context : ReportContext) (notices : List Notice) : ChangeKind → EntityKey → Prop
  | .added, key => Notice.Says notices .added key
  | .changed, key =>
      (Notice.Says notices .changed key ∨
        ∃ n ∈ notices, ∃ id, n.RollsUp context id ∧ key = .transaction id) ∧
        ¬ Notice.Says notices .deleted key
  | .deleted, key => Notice.Says notices .deleted key

/-! ## What is collected -/

theorem rollUp?_eq_some :
    rollUp? context n = some key ↔ ∃ id, n.RollsUp context id ∧ key = .transaction id := by
  have hfound : ∀ {id t}, context.transaction? id = some t ↔
      context.ledger.transaction? id = some t ∨
        context.ledger.transaction? id = none ∧ context.removed.get? id = some t := by
    intro id t
    exact Option.or_eq_some_iff
  unfold rollUp? Notice.RollsUp ReportContext.ownerOf?
  cases n.entity with
  | entry e =>
    simp only [Option.map_eq_some_iff, Option.bind_eq_some_iff, Option.or_eq_some_iff, hfound,
      Entity.entry.injEq, exists_eq_left']
    constructor
    · rintro ⟨t, ⟨id, howner, ht⟩, rfl⟩
      rcases ht with ht | ⟨-, ht⟩
      · exact ⟨id, ⟨howner, .inl ⟨t, ht⟩⟩, congrArg _ (Ledger.id_of_transaction ht)⟩
      · exact ⟨id, ⟨howner, .inr ⟨t, ht⟩⟩, congrArg _ (Register.key_of_get? ht)⟩
    · rintro ⟨id, ⟨howner, hknown⟩, rfl⟩
      cases hlive : context.ledger.transaction? id with
      | some t => exact ⟨t, ⟨id, howner, .inl hlive⟩, congrArg _ (Ledger.id_of_transaction hlive)⟩
      | none =>
        have hgone : ¬ ∃ t, context.ledger.transaction? id = some t := by
          rintro ⟨t, ht⟩
          rw [hlive] at ht
          cases ht
        obtain ⟨t, ht⟩ := hknown.resolve_left hgone
        exact ⟨t, ⟨id, howner, .inr ⟨hlive, ht⟩⟩, congrArg _ (Register.key_of_get? ht)⟩
  | _ => simp

/-- The keys collected for a kind of change. -/
def collected (s : ChangeSet) : ChangeKind → Register EntityKey
  | .added => s.added
  | .changed => s.changed
  | .deleted => s.deleted

theorem ext_collected {t : ChangeSet} (h : ∀ kind, s.collected kind = t.collected kind) : s = t := by
  obtain ⟨added, changed, deleted⟩ := s
  obtain ⟨added', changed', deleted'⟩ := t
  obtain rfl : added = added' := h .added
  obtain rfl : changed = changed' := h .changed
  obtain rfl : deleted = deleted' := h .deleted
  rfl

/-- What a notice adds to the keys collected for a kind of change. -/
def Collects (context : ReportContext) (n : Notice) (kind : ChangeKind) (key : EntityKey) : Prop :=
  n.kind = kind ∧ n.entity.key = key ∨
    kind = .changed ∧ ∃ id, n.RollsUp context id ∧ key = .transaction id

theorem mem_put_key {r : Register EntityKey} {k : EntityKey} :
    key ∈ (r.put k).items ↔ key ∈ r.items ∨ k = key := by
  rw [show key ∈ (r.put k).items ↔ _ from Register.mem_file_iff r.sorted]
  show key = k ∨ key ∈ r.items ∧ key ≠ k ↔ _
  grind

theorem mem_collected_notify :
    key ∈ ((s.notify context n).collected kind).items ↔
      key ∈ (s.collected kind).items ∨ Collects context n kind key := by
  unfold notify Collects
  simp only [← rollUp?_eq_some]
  cases hroll : rollUp? context n with
  | none => cases n <;> cases kind <;> simp [collected, Notice.kind, Notice.entity, mem_put_key]
  | some k =>
    cases n <;> cases kind <;> simp [collected, Notice.kind, Notice.entity, mem_put_key, or_assoc]

/-- The keys of all notices are collected, and no others. -/
theorem mem_collected_foldl :
    key ∈ ((notices.foldl (notify context) s).collected kind).items ↔
      key ∈ (s.collected kind).items ∨ ∃ n ∈ notices, Collects context n kind key := by
  induction notices generalizing s with
  | nil => simp
  | cons n notices ih =>
    rw [List.foldl_cons, ih, mem_collected_notify]
    simp only [List.mem_cons, exists_eq_or_imp, or_assoc]

/-- The order of the notices makes no difference. -/
theorem foldl_notify_perm (h : notices.Perm notices') :
    notices.foldl (notify context) s = notices'.foldl (notify context) s := by
  refine ext_collected fun kind => Register.ext_items (Register.eq_of_mem_iff
    (Register.sorted _) (Register.sorted _) fun key => ?_)
  rw [mem_collected_foldl, mem_collected_foldl]
  simp only [h.mem_iff]

/-! ## The events -/

end ChangeSet

/-- The place of a kind of change among the kinds. -/
def ChangeKind.index : ChangeKind → Int
  | .added => 0
  | .changed => 1
  | .deleted => 2

/-- Whether an event comes before another one: what happened decides, and then the kind of entity. -/
def Event.Before : Event → Event → Prop
  | .entitiesChanged entities kind _, .entitiesChanged entities' kind' _ =>
      kind.index < kind'.index ∨ kind = kind' ∧ entities.index < entities'.index
  | _, _ => False

namespace ChangeSet

variable {context : ReportContext} {notices : List Notice} {s : ChangeSet} {kind : ChangeKind}
  {keys : List EntityKey} {due : ChangeKind → EntityKey → Prop}

/-- Whether events report the keys that are due, each kind of change and of entity once, in order. -/
structure IsReport (due : ChangeKind → EntityKey → Prop) (events : List Event) : Prop where
  /-- Since no event comes before itself, there is one at most for a kind of change and of entity. -/
  ordered : events.Pairwise Event.Before
  shape : ∀ e ∈ events, ∃ entities kind keys, e = .entitiesChanged entities kind keys ∧ keys ≠ [] ∧
    keys.Pairwise (· < ·) ∧ ∀ key ∈ keys, key.kind = entities
  exact : ∀ kind key,
    (∃ entities keys, .entitiesChanged entities kind keys ∈ events ∧ key ∈ keys) ↔ due kind key

theorem mem_eventsOf {e : Event} :
    e ∈ eventsOf kind keys ↔ ∃ entities, e = .entitiesChanged entities kind
      (keys.filter fun key => key.kind = entities) ∧ ∃ key ∈ keys, key.kind = entities := by
  have hall (entities : EntityKind) : entities ∈ (Text.Named.all : List EntityKind) := by
    cases entities <;> decide
  unfold eventsOf
  simp only [List.mem_filterMap, hall, true_and]
  refine exists_congr fun entities => ?_
  cases hkeys : keys.filter fun key => key.kind = entities with
  | nil =>
    have hnone : ¬ ∃ key ∈ keys, key.kind = entities := by
      simpa [List.filter_eq_nil_iff] using hkeys
    simp [hnone]
  | cons key rest =>
    have hmem : key ∈ keys.filter fun key => key.kind = entities := by
      rw [hkeys]
      exact List.mem_cons_self
    have hsome : ∃ key ∈ keys, key.kind = entities := by
      obtain ⟨hkey, hkind⟩ := List.mem_filter.mp hmem
      exact ⟨key, hkey, of_decide_eq_true hkind⟩
    simp only [Option.some.injEq, hsome, and_true]
    exact eq_comm

/-- The events of one kind of change come in the order of the kinds of entities. -/
theorem pairwise_eventsOf (kind : ChangeKind) (keys : List EntityKey) :
    (eventsOf kind keys).Pairwise Event.Before := by
  have hkinds : (Text.Named.all : List EntityKind).Pairwise fun a b => a.index < b.index := by decide
  refine List.pairwise_filterMap.mpr (hkinds.imp fun {a b} hab => ?_)
  intro e he e' he'
  split at he
  · cases he
  · split at he'
    · cases he'
    · obtain rfl := Option.some.inj he
      obtain rfl := Option.some.inj he'
      exact .inr ⟨rfl, hab⟩

/-- The keys that events are made of, for a kind of change. -/
def reported (s : ChangeSet) : ChangeKind → List EntityKey
  | .added => s.added.items
  | .changed => s.onlyChanged
  | .deleted => s.deleted.items

theorem mem_events_iff {e : Event} : e ∈ s.events ↔ ∃ kind, e ∈ eventsOf kind (s.reported kind) := by
  unfold events
  rw [List.mem_append, List.mem_append, or_assoc]
  constructor
  · rintro (h | h | h)
    · exact ⟨.added, h⟩
    · exact ⟨.changed, h⟩
    · exact ⟨.deleted, h⟩
  · rintro ⟨kind, h⟩
    cases kind with
    | added => exact .inl h
    | changed => exact .inr (.inl h)
    | deleted => exact .inr (.inr h)

theorem pairwise_reported (s : ChangeSet) (kind : ChangeKind) :
    (s.reported kind).Pairwise (· < ·) := by
  cases kind with
  | added => exact s.added.sorted
  | changed => exact s.changed.sorted.filter _
  | deleted => exact s.deleted.sorted

theorem isReport_events (h : ∀ kind key, key ∈ s.reported kind ↔ due kind key) :
    IsReport due s.events where
  ordered := by
    have hacross {kind kind' : ChangeKind} {keys keys' : List EntityKey}
        (hlt : kind.index < kind'.index) :
        ∀ e ∈ eventsOf kind keys, ∀ e' ∈ eventsOf kind' keys', Event.Before e e' := by
      intro e he e' he'
      obtain ⟨_, rfl, -⟩ := mem_eventsOf.mp he
      obtain ⟨_, rfl, -⟩ := mem_eventsOf.mp he'
      exact .inl hlt
    unfold events
    refine List.pairwise_append.mpr ⟨List.pairwise_append.mpr ⟨pairwise_eventsOf _ _,
      pairwise_eventsOf _ _, hacross (by decide)⟩, pairwise_eventsOf _ _, fun e he => ?_⟩
    rcases List.mem_append.mp he with he | he
    · exact hacross (by decide) e he
    · exact hacross (by decide) e he
  shape e he := by
    obtain ⟨kind, he⟩ := mem_events_iff.mp he
    obtain ⟨entities, rfl, key, hkey, hkind⟩ := mem_eventsOf.mp he
    refine ⟨entities, kind, _, rfl, ?_, (s.pairwise_reported kind).filter _, fun key hkey => ?_⟩
    · exact List.ne_nil_of_mem (List.mem_filter.mpr ⟨hkey, decide_eq_true hkind⟩)
    · exact of_decide_eq_true (List.mem_filter.mp hkey).2
  exact kind key := by
    rw [← h kind key]
    constructor
    · rintro ⟨entities, keys, he, hkey⟩
      obtain ⟨kind', he⟩ := mem_events_iff.mp he
      obtain ⟨_, heq, -⟩ := mem_eventsOf.mp he
      obtain ⟨rfl, rfl, rfl⟩ := Event.entitiesChanged.inj heq
      exact (List.mem_filter.mp hkey).1
    · intro hkey
      exact ⟨key.kind, _, mem_events_iff.mpr ⟨kind, mem_eventsOf.mpr ⟨_, rfl, key, hkey, rfl⟩⟩,
        List.mem_filter.mpr ⟨hkey, decide_eq_true rfl⟩⟩

/-- What is reported after notices is what is due. -/
theorem mem_reported_foldl (kind : ChangeKind) (key : EntityKey) :
    key ∈ (notices.foldl (notify context) empty).reported kind ↔ Due context notices kind key := by
  have hcollected (kind : ChangeKind) :
      key ∈ ((notices.foldl (notify context) empty).collected kind).items ↔
        ∃ n ∈ notices, Collects context n kind key := by
    rw [mem_collected_foldl]
    refine or_iff_right fun hmem => ?_
    cases kind <;> exact List.not_mem_nil hmem
  have hadded := hcollected .added
  have hchanged := hcollected .changed
  have hdeleted := hcollected .deleted
  simp only [collected, Collects, reduceCtorEq, false_and, or_false, true_and, and_or_left,
    exists_or] at hadded hchanged hdeleted
  cases kind with
  | added => exact hadded
  | deleted => exact hdeleted
  | changed =>
    simp only [reported, onlyChanged, List.mem_filter, hchanged]
    refine and_congr_right fun _ => ?_
    rw [Bool.not_eq_true', ← Bool.not_eq_true, Register.contains_iff]
    refine not_congr (Iff.trans ⟨?_, fun hmem => ⟨key, ?_⟩⟩ hdeleted)
    · rintro ⟨k, hk⟩
      obtain ⟨hmem, rfl⟩ := Register.get?_eq_some_iff.mp hk
      exact hmem
    · exact Register.get?_eq_some_iff.mpr ⟨hmem, rfl⟩

end ChangeSet

/-! ## The recorder -/

theorem Recorder.notifyAll_changes (context : ReportContext) (s : ChangeSet) (notices : List Notice) :
    (changes s).notifyAll context notices =
      .ok (.changes (notices.foldl (ChangeSet.notify context) s)) := by
  induction notices generalizing s with
  | nil => rfl
  | cons n notices ih =>
    refine foldlM_cons_ok ?_ (ih (s.notify context n))
    rw [notify]

theorem Recorder.drain_changes (s : ChangeSet) :
    (changes s).drain = .ok (s.events, .changes .empty) := by
  unfold drain
  rw [events, cleared]
  rfl

namespace ChangeSet

/-- A change set that took in notices reports exactly what is due, in order; it reports the same for the
notices in any other order, and nothing when it is asked again. -/
theorem changes_exact (context : ReportContext) (notices : List Notice) :
    ∃ events rest,
      ((Recorder.changes .empty).notifyAll context notices).bind Recorder.drain =
        .ok (events, rest) ∧
      IsReport (Due context notices) events ∧
      (∀ notices' : List Notice, notices'.Perm notices →
        ((Recorder.changes .empty).notifyAll context notices').bind Recorder.drain =
          .ok (events, rest)) ∧
      ∃ rest', rest.drain = .ok ([], rest') := by
  refine ⟨(notices.foldl (notify context) empty).events, .changes .empty, ?_,
    isReport_events mem_reported_foldl, fun notices' hperm => ?_, _, Recorder.drain_changes empty⟩
  · rw [Recorder.notifyAll_changes]
    exact Recorder.drain_changes _
  · rw [Recorder.notifyAll_changes, foldl_notify_perm hperm]
    exact Recorder.drain_changes _

/-- Two transactions that were removed. -/
def removedTwo : ReportContext :=
  ⟨.new .standard, .ofList [⟨⟨1⟩, ⟨7⟩, .june 20, none, none, []⟩, ⟨⟨2⟩, ⟨7⟩, .june 21, none, none, []⟩]⟩

/-- Entries of both of them were deleted, but only the first is said to be deleted itself, and an entry
was added to a transaction that is not known. -/
def deletedOne : List Notice :=
  [.deleted (.entry ⟨⟨3⟩, none, none, none, none, none, none⟩) ⟨[.transaction (some ⟨1⟩)]⟩,
    .deleted (.transaction ⟨⟨1⟩, ⟨7⟩, .june 20, none, none, []⟩) .empty,
    .deleted (.entry ⟨⟨4⟩, none, none, none, none, none, none⟩) ⟨[.transaction (some ⟨2⟩)]⟩,
    .added (.entry ⟨⟨5⟩, some ⟨9⟩, none, none, none, none, none⟩)]

theorem changes_exact_reversed :
    deletedOne.reverse.Perm deletedOne ∧ ∃ rest,
      ((Recorder.changes .empty).notifyAll removedTwo deletedOne.reverse).bind Recorder.drain =
        .ok ([.entitiesChanged .entry .added [.entry ⟨5⟩],
          .entitiesChanged .transaction .changed [.transaction ⟨2⟩],
          .entitiesChanged .transaction .deleted [.transaction ⟨1⟩],
          .entitiesChanged .entry .deleted [.entry ⟨3⟩, .entry ⟨4⟩]], rest) := by
  have hreversed : deletedOne.reverse.Perm deletedOne := List.reverse_perm _
  obtain ⟨events, rest, hdrain, -, hperm, -⟩ := changes_exact removedTwo deletedOne
  refine ⟨hreversed, rest, ?_⟩
  rw [hperm _ hreversed]
  rw [Recorder.notifyAll_changes] at hdrain
  obtain ⟨rfl, -⟩ := Prod.mk.inj (Except.ok.inj ((Recorder.drain_changes _).symm.trans hdrain))
  exact congrArg (fun events => Except.ok (events, rest)) (by decide +kernel)

end ChangeSet

end Lotbook
