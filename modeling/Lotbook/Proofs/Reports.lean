/-
# Lotbook.Proofs.Reports -- what is reported of a session

The notices of a session come in groups, one for each touched key, and the group of a key says what
became of its entity between the beginning and the end (`Session.Due`). Whatever differs is touched,
and what is recorded of fields tells the two states apart (`Session.notices_due`). What is missing are
lots that a matching changed and did not name; that happens only where the demand is so much larger
than the shares allocated that it is the same after they are taken off.
-/
import Lotbook.Proofs.Runs
import Mathlib.Tactic.FinCases

namespace Lotbook

/-! ## What previous values tell -/

namespace Previous

variable {p : Previous} {before now : List FieldValue}

/-- A field that is known was what is known of it, and any other is what it was. -/
theorem Tells.value_eq {α : Type} {get : FieldValue → Option α} (mk : α → FieldValue)
    (hget : ∀ v x, get v = some x ↔ v = mk x) {x y : α} (h : p.Tells before now)
    (hbefore : ∀ z, mk z ∈ before ↔ z = x) (hnow : ∀ z, mk z ∈ now ↔ z = y) :
    (p.values.findSome? get).getD y = x := by
  cases hknown : p.values.findSome? get with
  | some z =>
    obtain ⟨v, hv, hvz⟩ := List.exists_of_findSome?_eq_some hknown
    obtain rfl := (hget v z).mp hvz
    exact (hbefore z).mp (h.of_before _ hv)
  | none =>
    rcases h.of_change _ ((hbefore x).mpr rfl) with hx | hx
    · exact ((hnow x).mp hx).symm
    · have hnone := List.findSome?_eq_none_iff.mp hknown _ hx
      rw [(hget _ x).mpr rfl] at hnone
      cases hnone

variable {t t' : Transaction} {e e' : Entry}

theorem Tells.account (h : p.Tells t.facts t'.facts) : p.account?.getD t'.account = t.account := by
  refine h.value_eq .account (fun v x => ?_) (by simp [Transaction.facts])
    (by simp [Transaction.facts])
  cases v <;> simp

theorem Tells.date (h : p.Tells t.facts t'.facts) : p.date?.getD t'.date = t.date := by
  refine h.value_eq .date (fun v x => ?_) (by simp [Transaction.facts])
    (by simp [Transaction.facts])
  cases v <;> simp

theorem Tells.security (h : p.Tells t.facts t'.facts) :
    p.security?.getD t'.security = t.security := by
  refine h.value_eq .security (fun v x => ?_) (by simp [Transaction.facts])
    (by simp [Transaction.facts])
  cases v <;> simp

theorem Tells.amount (h : p.Tells e.facts e'.facts) : p.amount?.getD e'.amount = e.amount := by
  refine h.value_eq .amount (fun v x => ?_) (by simp [Entry.facts]) (by simp [Entry.facts])
  cases v <;> simp

theorem Tells.quantity (h : p.Tells e.facts e'.facts) :
    p.quantity?.getD e'.quantity = e.quantity := by
  refine h.value_eq .quantity (fun v x => ?_) (by simp [Entry.facts])
    (by simp [Entry.facts])
  cases v <;> simp

/-- The owner of a removed entry is known. -/
theorem Tells.transaction {owner : TransactionId} (h : p.Tells e.facts e'.facts)
    (howner : e.transaction = some owner) (hnone : e'.transaction = none) :
    p.transaction? = some owner := by
  have hmem : .transaction (some owner) ∈ p.values := by
    have hbefore : .transaction (some owner) ∈ e.facts := by simp [Entry.facts, howner]
    refine (h.of_change _ hbefore).resolve_left fun hnow => ?_
    simp [Entry.facts, hnone] at hnow
  rw [transaction?]
  cases hknown : p.values.findSome? _ with
  | some z =>
    obtain ⟨v, hv, hvz⟩ := List.exists_of_findSome?_eq_some hknown
    cases v with
    | transaction w =>
      obtain rfl : w = some z := hvz
      have hz := h.of_before _ hv
      simp only [Entry.facts, howner, List.mem_cons, FieldValue.transaction.injEq, reduceCtorEq,
        List.not_mem_nil, or_false] at hz
      exact hz
    | _ => cases hvz
  | none => cases List.findSome?_eq_none_iff.mp hknown _ hmem

/-- Of a field that no value belongs to nothing is known. -/
theorem findSome?_eq_none {α : Type} {get : FieldValue → Option α}
    (h : ∀ v ∈ p.values, v.field = .transaction) (hget : ∀ v, v.field = .transaction → get v = none) :
    p.values.findSome? get = none := List.findSome?_eq_none_iff.mpr fun v hv => hget v (h v hv)

/-- A removed transaction that is shown as it was has the fields it had. -/
theorem Tells.facts_restored (h : p.Tells t.facts t'.facts) :
    (Touched.restored p t').facts = t.facts := by
  rw [Transaction.facts, Transaction.facts, ← h.account, ← h.date, ← h.security]
  rfl

end Previous

/-! ## Entities as they are shown -/

/-- A lot is determined by its key and its fields. -/
theorem Lot.eq_of_facts {lot lot' : Lot} (hkey : lot.key = lot'.key) (h : lot.facts = lot'.facts) :
    lot = lot' := by
  obtain ⟨purchase, sale, p, a⟩ := lot
  obtain ⟨purchase', sale', p', a'⟩ := lot'
  simp only [facts, key, List.cons.injEq, FieldValue.purchaseShares.injEq,
    FieldValue.adjustedShares.injEq, LotKey.mk.injEq, and_true] at h hkey
  obtain ⟨⟨rfl, rfl⟩, rfl, rfl⟩ := And.intro hkey h
  rfl

theorem Ledger.lot?_eq_of_facts {l l₁ : Ledger} {key : LotKey}
    (h : l₁.facts? (.lot key) = l.facts? (.lot key)) : l₁.lot? key = l.lot? key := by
  rw [facts?, facts?] at h
  cases hlot : l.lot? key with
  | none =>
    rw [hlot] at h
    exact Option.map_eq_none_iff.mp h
  | some lot =>
    rw [hlot] at h
    obtain ⟨lot₁, hlot₁, hfacts⟩ := Option.map_eq_some_iff.mp h
    rw [hlot₁, Lot.eq_of_facts ((key_of_lot hlot₁).trans (key_of_lot hlot).symm) hfacts]

namespace Touched

variable {l : Ledger} {key : EntityKey}

theorem key_of_live? {e : Entity} (h : live? l key = some e) : e.key = key := by
  cases key with
  | transaction id =>
    obtain ⟨t, ht, rfl⟩ := Option.map_eq_some_iff.mp h
    exact congrArg _ (Ledger.id_of_transaction ht)
  | entry id =>
    obtain ⟨x, hx, rfl⟩ := Option.map_eq_some_iff.mp h
    exact congrArg _ (Ledger.id_of_entry hx)
  | lot k =>
    obtain ⟨lot, hlot, rfl⟩ := Option.map_eq_some_iff.mp h
    exact congrArg _ (Ledger.key_of_lot hlot)
  | stockSplit id date =>
    obtain ⟨split, hsplit, rfl⟩ := Option.map_eq_some_iff.mp h
    obtain ⟨sec, -, hon⟩ := Option.bind_eq_some_iff.mp hsplit
    exact congrArg _ (Register.key_of_get? hon)
  | security id | category id | account id => exact Option.some.inj h ▸ rfl

/-- An entity that is in the ledger is shown with the fields that it has there. -/
theorem live?_of_facts {facts : List FieldValue} (h : l.facts? key = some facts) :
    ∃ e, live? l key = some e ∧ e.facts = facts := by
  cases key with
  | account id => cases h
  | security id | category id =>
    obtain ⟨-, -, rfl⟩ := Option.map_eq_some_iff.mp h
    exact ⟨_, rfl, rfl⟩
  | transaction id | entry id | lot k | stockSplit id date =>
    obtain ⟨x, hx, rfl⟩ := Option.map_eq_some_iff.mp h
    exact ⟨_, Option.map_eq_some_iff.mpr ⟨x, hx, rfl⟩, rfl⟩

/-- A removed entity is shown as it was when it was removed; of a transaction, what is recorded of it
before takes the place of what it had then. -/
theorem lastState?_of_removed {t : Touched} {last : Entity} (h : t.removed = some last) :
    ∃ e, t.lastState? = some e ∧ e.key = last.key ∧
      e.facts.map FieldValue.field = last.facts.map FieldValue.field ∧
      (∀ x, e = .entry x → last = .entry x) ∧
      ∀ {l : Ledger} {facts : List FieldValue}, l.facts? last.key = some facts →
        t.previous.Tells facts last.facts → t.previous.Tells facts e.facts := by
  rw [lastState?, h]
  cases last with
  | transaction x =>
    refine ⟨.transaction (restored t.previous x), rfl, rfl, rfl, (fun _ he => by cases he),
      fun hfacts htells => ?_⟩
    obtain ⟨x₀, -, rfl⟩ := Option.map_eq_some_iff.mp hfacts
    refine ⟨htells.of_before, fun v hv => .inl ?_⟩
    rw [← htells.facts_restored] at hv
    exact hv
  | entry x => exact ⟨_, rfl, rfl, rfl, fun _ h => h, fun _ h => h⟩
  | lot x => exact ⟨_, rfl, rfl, rfl, fun _ h => h, fun _ h => h⟩
  | stockSplit id split => exact ⟨_, rfl, rfl, rfl, fun _ h => h, fun _ h => h⟩
  | other key => exact ⟨_, rfl, rfl, rfl, fun _ h => h, fun _ h => h⟩

theorem key_asAdded (t : Touched) (e : Entity) : (t.asAdded e).key = e.key := by
  cases e <;> rfl

end Touched

theorem Entity.eq_transaction {e : Entity} {id : TransactionId} (hkey : e.key = .transaction id)
    (hfields : e.facts.map FieldValue.field = (EntityKey.transaction id).fields) :
    ∃ t, e = .transaction t ∧ t.id = id := by
  cases e with
  | transaction t => exact ⟨t, rfl, EntityKey.transaction.inj hkey⟩
  | other key => cases hfields
  | entry | lot | stockSplit => cases hkey

theorem Entity.eq_entry {e : Entity} {id : EntryId} (hkey : e.key = .entry id)
    (hfields : e.facts.map FieldValue.field = (EntityKey.entry id).fields) :
    ∃ x, e = .entry x ∧ x.id = id := by
  cases e with
  | entry x => exact ⟨x, rfl, EntityKey.entry.inj hkey⟩
  | other key => cases hfields
  | transaction | lot | stockSplit => cases hkey

/-! ## The group of a key -/

namespace Session

/-- What is due to be reported of a key: whether its entity came, went, stayed, or came and went, and
with it what its fields were before, if no matching overlooked it. -/
inductive Due (lapse : Prop) (before after : Ledger) (key : EntityKey) : List Notice → Prop
  | added {e : Entity} (hbefore : before.facts? key = none) (hlive : Touched.live? after key = some e)
      (hafter : after.facts? key = some e.facts) : Due lapse before after key [.added e]
  | changed {e : Entity} {facts : List FieldValue} {previous : Previous}
      (hbefore : before.facts? key = some facts) (hlive : Touched.live? after key = some e)
      (hafter : after.facts? key = some e.facts) (htells : ¬ lapse → previous.Tells facts e.facts) :
      Due lapse before after key [.changed e previous]
  | deleted {last : Entity} {facts : List FieldValue} {previous : Previous}
      (hbefore : before.facts? key = some facts) (hafter : after.facts? key = none)
      (hkey : last.key = key) (hfields : last.facts.map FieldValue.field = key.fields)
      (htells : ¬ lapse → previous.Tells facts last.facts)
      (hdetached : ∀ e, last = .entry e → e.transaction = none) :
      Due lapse before after key [.deleted last previous]
  | passed {t : Touched} {last : Entity} (hbefore : before.facts? key = none)
      (hafter : after.facts? key = none) (hkey : last.key = key)
      (hfields : last.facts.map FieldValue.field = key.fields)
      (hprevious : ∀ v ∈ t.previous.values, v.field = .transaction)
      (hdetached : ∀ e, last = .entry e → e.transaction = none) :
      Due lapse before after key [.added (t.asAdded last), .deleted last t.previous]

/-- What a faithful record is reported as is what is due. -/
theorem due_of_faithful {lapse : Prop} {before after : Ledger} {key : EntityKey} {t : Touched}
    (h : t.Faithful lapse key (before.facts? key) (after.facts? key)) :
    Due lapse before after key (t.notices after) := by
  obtain rfl := h.key_eq
  rw [Touched.notices]
  cases hremoved : t.removed with
  | none =>
    have hsome : (after.facts? t.key).isSome := by simpa [hremoved] using h.removed_eq.symm
    obtain ⟨facts, hafter⟩ := Option.isSome_iff_exists.mp hsome
    obtain ⟨e, hlive, rfl⟩ := Touched.live?_of_facts hafter
    simp only [Touched.lastState?, hremoved, Option.map_none, hlive]
    cases hadded : t.added with
    | true =>
      have hbefore : before.facts? t.key = none := by simpa [hadded] using h.added_eq.symm
      exact .added hbefore hlive hafter
    | false =>
      obtain ⟨b, hbefore⟩ : ∃ b, before.facts? t.key = some b :=
        Option.isSome_iff_exists.mp (by simpa [hadded] using h.added_eq.symm)
      refine .changed hbefore hlive hafter fun hquiet => ?_
      have htells := h.tells hquiet b hbefore
      rwa [hafter] at htells
  | some last =>
    have hafter : after.facts? t.key = none := by simpa [hremoved] using h.removed_eq.symm
    have hkey := h.removed_key last hremoved
    obtain ⟨e, hlast, he, hfields, hentry, htells⟩ := Touched.lastState?_of_removed hremoved
    have hfields : e.facts.map FieldValue.field = t.key.fields := by
      rw [hfields, ← h.fields_eq, Touched.lastFacts, hafter, hremoved]
      rfl
    have hdetached (x : Entry) (hx : e = .entry x) : x.transaction = none :=
      h.detached x (hremoved.trans (congrArg some (hentry x hx)))
    simp only [hlast]
    cases hadded : t.added with
    | true =>
      have hbefore : before.facts? t.key = none := by simpa [hadded] using h.added_eq.symm
      exact .passed hbefore hafter (he.trans hkey) hfields (h.of_added hbefore) hdetached
    | false =>
      obtain ⟨b, hbefore⟩ : ∃ b, before.facts? t.key = some b :=
        Option.isSome_iff_exists.mp (by simpa [hadded] using h.added_eq.symm)
      refine .deleted hbefore hafter (he.trans hkey) hfields (fun hquiet => ?_) hdetached
      have := h.tells hquiet b hbefore
      rw [Touched.lastFacts, hafter, hremoved] at this
      exact htells (hkey ▸ hbefore) this

/-! ## The order of the groups -/

/-- The order in which touched keys are reported: entries, lots, transactions, everything else. -/
def reportedKeys (keys : List EntityKey) : List EntityKey :=
  (keys.filter fun key => key.kind = .entry) ++ (keys.filter fun key => key.kind = .lot) ++
    (keys.filter fun key => key.kind = .transaction) ++
    keys.filter fun key => key.kind ≠ .entry ∧ key.kind ≠ .lot ∧ key.kind ≠ .transaction

theorem map_key_reportOrder (s : Session) :
    s.reportOrder.map Touched.key = reportedKeys s.journal.keys := by
  have hrank (r : Nat) (p : EntityKey → Prop) [DecidablePred p]
      (hp : ∀ t : Touched, t.reportRank = r ↔ p t.key) :
      (s.journal.records.filter fun t => t.reportRank = r).map Touched.key =
        s.journal.keys.filter (p ·) := by
    rw [Journal.keys, List.filter_map]
    refine congrArg (List.map _) (List.filter_congr fun t _ => ?_)
    simp [hp]
  have h₀ := hrank 0 (·.kind = .entry) fun t => by
    rw [Touched.reportRank]
    cases t.key <;> simp [EntityKey.kind]
  have h₁ := hrank 1 (·.kind = .lot) fun t => by
    rw [Touched.reportRank]
    cases t.key <;> simp [EntityKey.kind]
  have h₂ := hrank 2 (·.kind = .transaction) fun t => by
    rw [Touched.reportRank]
    cases t.key <;> simp [EntityKey.kind]
  have h₃ := hrank 3 (fun key => key.kind ≠ .entry ∧ key.kind ≠ .lot ∧ key.kind ≠ .transaction)
    fun t => by
      rw [Touched.reportRank]
      cases t.key <;> simp [EntityKey.kind]
  simp only [reportOrder, List.flatMap_cons, List.flatMap_nil, List.append_nil, List.map_append,
    h₀, h₁, h₂, h₃, reportedKeys, List.append_assoc]

theorem mem_records_of_mem_reportOrder {s : Session} {t : Touched} (h : t ∈ s.reportOrder) :
    t ∈ s.journal.records := by
  obtain ⟨r, -, ht⟩ := List.mem_flatMap.mp h
  exact List.mem_of_mem_filter ht

/-- What is reported under a key. -/
def group (s : Session) (key : EntityKey) : List Notice :=
  ((s.journal.record? key).map (Touched.notices s.ledger)).getD []

/-- The notices are the groups of the touched keys, one after the other. -/
theorem notices_eq_flatMap_group {s : Session} (h : s.journal.keys.Nodup) :
    s.notices = (reportedKeys s.journal.keys).flatMap s.group := by
  rw [← map_key_reportOrder, List.flatMap_map]
  refine List.flatMap_congr fun t ht => ?_
  rw [group, Journal.record?_of_mem h (mem_records_of_mem_reportOrder ht)]
  rfl

/-- The notices of a group are about its key. -/
theorem key_of_mem_group {s : Session} (h : s.journal.Filed) {key : EntityKey} {n : Notice}
    (hn : n ∈ s.group key) : n.entity.key = key := by
  rw [group] at hn
  cases ht : s.journal.record? key with
  | none =>
    rw [ht] at hn
    exact (List.not_mem_nil hn).elim
  | some t =>
    obtain rfl := Journal.key_of_record ht
    rw [ht, Option.map_some, Option.getD_some, Touched.notices] at hn
    cases hremoved : t.removed with
    | none =>
      simp only [Touched.lastState?, hremoved, Option.map_none] at hn
      split at hn
      · rename_i e hlive
        have hkey := Touched.key_of_live? hlive
        split at hn <;> (obtain rfl := List.mem_singleton.mp hn; exact hkey)
      · exact (List.not_mem_nil hn).elim
    | some last =>
      obtain ⟨e, hlast, he, -⟩ := Touched.lastState?_of_removed hremoved
      have hkey := he.trans (h t (List.mem_of_find?_eq_some ht) last hremoved)
      simp only [hlast] at hn
      rcases List.mem_append.mp hn with hn | hn
      · split at hn
        · obtain rfl := List.mem_singleton.mp hn
          exact (t.key_asAdded e).trans hkey
        · exact (List.not_mem_nil hn).elim
      · obtain rfl := List.mem_singleton.mp hn
        exact hkey

/-! ## What a whole session reports -/

variable {before : Ledger} {edits : List Edit} {s : Session}

theorem Run.nodup_keys {allowed : Session → Edit → Prop} (hrun : Run allowed (start before) edits s)
    (h : before.Sound) : s.journal.keys.Nodup := (hrun.journal h).nodup .nil

theorem Tracks.mem_keys {lapse : Prop} {key : EntityKey} (h : Tracks lapse before key s)
    (hquiet : ¬ lapse) (hdiffers : s.ledger.facts? key ≠ before.facts? key) :
    key ∈ s.journal.keys := by
  by_contra hmem
  have hnone : s.journal.record? key = none := by
    by_contra hsome
    exact hmem (Journal.mem_keys_iff.mpr (Option.ne_none_iff_exists'.mp hsome))
  have hfaithful := h.faithful
  rw [sight, hnone] at hfaithful
  exact hdiffers (hfaithful.2 hquiet)

theorem Tracks.due_group {lapse : Prop} {key : EntityKey} (h : Tracks lapse before key s)
    (hkey : key ∈ s.journal.keys) : Due lapse before s.ledger key (s.group key) := by
  obtain ⟨t, ht⟩ := Journal.mem_keys_iff.mp hkey
  have hfaithful := h.faithful
  rw [sight, ht] at hfaithful
  rw [group, ht]
  exact due_of_faithful hfaithful

/-! ## What is overlooked -/

/-- A lot is overlooked only where what it took is so much smaller than the demand that the demand did
not shrink. -/
theorem Overlooks.growth {edit : Edit} {key : EntityKey} (h : s.Overlooks edit key) :
    ∃ lotKey, key = .lot lotKey ∧ ∃ l demand rest, s.ledger.Changed l ∧
      ∃ g : l.Growth lotKey demand, demand.sub g.taken = .ok rest ∧ demand ≤ rest := by
  obtain ⟨lotKey, rfl, a, l₁, hmatching, hne, hcreated, hupdated⟩ := h
  refine ⟨lotKey, rfl, ?_⟩
  cases edit with
  | matchLots sale candidates =>
    exact Ledger.allocateLots_overlooks (Option.some.inj hmatching) hne hcreated hupdated
  | matchByStrategy sale strategy =>
    rcases Ledger.allocateByStrategy_cases (Option.some.inj hmatching) with
      ⟨e, herror, -⟩ | ⟨t, security, purchases, sorted, -, -, -, -, h⟩
    · cases herror
    · exact Ledger.allocateLots_overlooks h hne hcreated hupdated
  | _ => cases hmatching

/-- So does any run that lets a lot slip, at some point. -/
theorem Slips.growth {key : EntityKey} (h : Slips key s edits) (hs : s.ledger.Sound) :
    ∃ lotKey, key = .lot lotKey ∧ ∃ l demand rest, s.ledger.Changed l ∧
      ∃ g : l.Growth lotKey demand, demand.sub g.taken = .ok rest ∧ demand ≤ rest := by
  induction h with
  | now hoverlooks => exact hoverlooks.growth
  | later hedit _ ih =>
    have hchanged := perform_changed hs hedit
    obtain ⟨lotKey, hkey, l, demand, rest, hafter, hgrowth⟩ := ih (hchanged.sound hs)
    exact ⟨lotKey, hkey, l, demand, rest, hchanged.trans hafter, hgrowth⟩

/-- A matching does not touch a lot that it overlooks. -/
theorem Overlooks.record?_eq {edit : Edit} {key : EntityKey} {refusal : Option Failure}
    (h : s.Overlooks edit key) {s₁ : Session} (hedit : s.perform edit = .ok (refusal, s₁)) :
    s₁.ledger.facts? key ≠ s.ledger.facts? key ∧
      s₁.journal.record? key = s.journal.record? key := by
  obtain ⟨k, rfl, a, l₁, hmatching, hne, hcreated, hupdated⟩ := h
  obtain ⟨hmatched, rfl⟩ : s.ledger.Matched l₁ (.ok a) ∧
      s₁ = ⟨l₁, noteAllocation s.journal s.ledger a⟩ := by
    cases edit with
    | matchLots sale candidates =>
      have hmatch := Option.some.inj hmatching
      rw [perform, matchLots, hmatch] at hedit
      exact ⟨Ledger.allocateLots_matched hmatch, (Prod.mk.inj (Except.ok.inj hedit)).2.symm⟩
    | matchByStrategy sale strategy =>
      have hmatch := Option.some.inj hmatching
      rw [perform, matchByStrategy, hmatch] at hedit
      exact ⟨Ledger.allocateByStrategy_matched hmatch, (Prod.mk.inj (Except.ok.inj hedit)).2.symm⟩
    | _ => cases hmatching
  refine ⟨mt Ledger.lot?_eq_of_facts hne, ?_⟩
  · have hgrown := Journal.record?_foldl_noteGrown s.ledger a.updated
      (s.journal.addAll (a.created.map .lot)) (.lot k)
    have hnodup : (a.created.map EntityKey.lot).Nodup :=
      (hmatched.nodup a rfl).map fun _ _ h => EntityKey.lot.inj h
    rcases hgrown with ⟨k', lot, hk, hmem, -, -⟩ | ⟨-, heq⟩
    · exact absurd (EntityKey.lot.inj hk ▸ hmem) hupdated
    · refine heq.trans ((Journal.record?_addAll hnodup s.journal _).trans (if_neg fun hmem => ?_))
      obtain ⟨k', hk', heq⟩ := List.mem_map.mp hmem
      exact hcreated (EntityKey.lot.inj heq ▸ hk')

/-- A lot that is overlooked as the first thing in a session is not reported, although it differs. -/
theorem Overlooks.unreported {edit : Edit} {key : EntityKey} {refusal : Option Failure}
    (h : (start before).Overlooks edit key)
    (hedit : (start before).perform edit = .ok (refusal, s)) :
    s.ledger.facts? key ≠ before.facts? key ∧ key ∉ s.journal.keys := by
  obtain ⟨hfacts, hrecord⟩ := h.record?_eq hedit
  refine ⟨hfacts, fun hkey => ?_⟩
  obtain ⟨t, ht⟩ := Journal.mem_keys_iff.mp hkey
  rw [hrecord] at ht
  cases ht

/-! ## What is reported -/

/-- Whatever was done in a session in which every matching went through, a recorder is handed one
group of notices for each touched key, by kind and in the order of first touch: what is due of that
key. Every key under which anything differs is touched. Both but for lots that a matching overlooked, which
it does only to a lot that takes so little that the demand does not shrink. A lot that is overlooked in a
session of one edit is not reported at all. -/
theorem notices_due (hbefore : before.Reachable) (hrun : Run Matches (start before) edits s) :
    (∀ recorder : Recorder, s.complete recorder =
      (recorder.notifyAll s.context s.notices).bind Recorder.events) ∧
    s.notices = (reportedKeys s.journal.keys).flatMap s.group ∧
    s.journal.keys.Nodup ∧
    (∀ edits₁ s₁ edits₂, Run Matches (start before) edits₁ s₁ → Run Matches s₁ edits₂ s →
      s₁.journal.keys <+: s.journal.keys) ∧
    (∀ key ∈ s.journal.keys,
      Due (Slips key (start before) edits) before s.ledger key (s.group key)) ∧
    (∀ key, ¬ Slips key (start before) edits → s.ledger.facts? key ≠ before.facts? key →
      key ∈ s.journal.keys) ∧
    (∀ key, Slips key (start before) edits → ∃ lotKey, key = .lot lotKey ∧
      ∃ l demand rest, before.Changed l ∧
        ∃ g : l.Growth lotKey demand, demand.sub g.taken = .ok rest ∧ demand ≤ rest) ∧
    ∀ edit key, edits = [edit] → (start before).Overlooks edit key →
      s.ledger.facts? key ≠ before.facts? key ∧ key ∉ s.journal.keys := by
  have htracks (key : EntityKey) : Tracks (Slips key (start before) edits) before key s :=
    hrun.tracks hbefore.sound fun _ _ _ h => h
  refine ⟨fun _ => rfl, notices_eq_flatMap_group (hrun.nodup_keys hbefore.sound),
    hrun.nodup_keys hbefore.sound, ?_, fun key hkey => (htracks key).due_group hkey,
    fun key hquiet => (htracks key).mem_keys hquiet, fun key hslips => hslips.growth hbefore.sound, ?_⟩
  · intro edits₁ s₁ edits₂ hrun₁ hrun₂
    exact (hrun₂.journal ((hrun₁.changed hbefore.sound).sound hbefore.sound)).keys
  · rintro edit key rfl hoverlooks
    cases hrun with
    | step _ hedit hrest =>
      cases hrest
      exact hoverlooks.unreported hedit

/-- A transaction with an entry. -/
def booked : List Ledger.Edit :=
  [.addTransaction ⟨7⟩ (.june 20) none, .addEntry ⟨1⟩ none none none]

/-- The transaction moves, its entry is resized, another transaction is added, and its entry does not
stay. -/
def rebooked : List Edit :=
  [.setAccount ⟨1⟩ ⟨8⟩, .setAmount ⟨2⟩ (some 1), .addTransaction ⟨7⟩ (.june 21) none,
    .addEntry ⟨3⟩ (some 1) none none, .deleteEntry ⟨4⟩]

theorem notices_due_rebooked :
    ∃ before s, before.Reachable ∧ Run Matches (start before) rebooked s ∧
      s.notices = [EntityKey.entry ⟨2⟩, .entry ⟨4⟩, .transaction ⟨1⟩, .transaction ⟨3⟩].flatMap
        s.group := by
  have hcheck : (((Ledger.new .standard).performAll booked).toOption.any fun before =>
      ((start before).performAll rebooked).toOption.any fun s =>
        reportedKeys s.journal.keys =
          [.entry ⟨2⟩, .entry ⟨4⟩, .transaction ⟨1⟩, .transaction ⟨3⟩]) = true := by
    decide +kernel
  obtain ⟨before, hbooked, hcheck⟩ := exists_ok_of_any hcheck
  obtain ⟨s, hrebooked, hcheck⟩ := exists_ok_of_any hcheck
  have hquiet : ∀ edit ∈ rebooked, ∀ s, Matches s edit := by
    intro edit hedit s outcome houtcome
    fin_cases hedit <;> cases houtcome
  have hbefore := (Ledger.Reachable.new .standard).performAll hbooked
  have hrun := Run.of_performAll hquiet hrebooked
  exact ⟨before, s, hbefore, hrun, of_decide_eq_true hcheck ▸ (notices_due hbefore hrun).2.1⟩

/-- A sale of one share that is matched, after which the sale becomes as large as can be, and its
purchase a little larger. -/
def outgrown : List Ledger.Edit :=
  [.addTransaction ⟨7⟩ (.june 20) none, .addEntry ⟨1⟩ none (some 1) none,
    .addTransaction ⟨7⟩ (.june 21) none, .addEntry ⟨3⟩ none (some (-1)) none,
    .allocateLots ⟨4⟩ [⟨2⟩],
    .setQuantity ⟨4⟩ (some (.ofMantissa (-79228162514264337593543950335) 0 (by decide))),
    .setQuantity ⟨2⟩ (some (.ofMantissa 11 1 (by decide)))]

/-- There are matchings that overlook a lot. -/
theorem exists_unreported :
    ∃ before s, before.Reachable ∧ Run Matches (start before) [.matchLots ⟨4⟩ [⟨2⟩]] s ∧
      s.ledger.facts? (.lot ⟨⟨2⟩, ⟨4⟩⟩) ≠ before.facts? (.lot ⟨⟨2⟩, ⟨4⟩⟩) ∧ s.notices = [] := by
  have hcheck : (((Ledger.new .standard).performAll outgrown).toOption.any fun before =>
      (before.allocateLots ⟨4⟩ [⟨2⟩]).toOption.any fun matched =>
        matched.1.toOption.any fun a =>
          a.created = [] ∧ a.updated = [] ∧
            matched.2.facts? (.lot ⟨⟨2⟩, ⟨4⟩⟩) ≠ before.facts? (.lot ⟨⟨2⟩, ⟨4⟩⟩)) = true := by
    decide +kernel
  obtain ⟨before, hbefore, hcheck⟩ := exists_ok_of_any hcheck
  obtain ⟨⟨outcome, after⟩, hmatch, hcheck⟩ := exists_ok_of_any hcheck
  obtain ⟨⟨created, updated, unallocated⟩, rfl, hcheck⟩ := exists_ok_of_any hcheck
  obtain ⟨rfl, rfl, hdiffers⟩ := of_decide_eq_true hcheck
  refine ⟨before, ⟨after, .empty⟩, (Ledger.Reachable.new .standard).performAll hbefore,
    .step (fun result hresult => ?_) (show _ = Except.ok (none, _) from ?_) (.done _), hdiffers, rfl⟩
  · obtain rfl := Option.some.inj hresult
    exact ⟨_, after, hmatch⟩
  · rw [perform, matchLots, start, hmatch]
    rfl

end Session

end Lotbook
