/-
# Lotbook.Proofs.Integrity -- what is referred to is there

Entries refer to transactions and categories, transactions to entries, and lots to entries. In every
reachable ledger whatever is referred to is there: a removal takes along what would refer to what it
removes, and categories are never removed (`Ledger.Integral`). All that has a number has one of its own,
and no number is given again, neither while what has it is there nor after it is gone
(`Ledger.referential_integrity`).
-/
import Lotbook.Proofs.Issuing
import Lotbook.Proofs.LotsFollow

namespace Lotbook.Ledger

variable {l l₁ : Ledger} {edit : Edit}

/-! ## Categories of entries -/

/-- The category of an entry is there. -/
def Categorized (l : Ledger) : Prop :=
  ∀ id e c, l.entry? id = some e → e.category = some c → ∃ x, l.category? c = some x

/-- Categories are not removed. -/
theorem Operation.exists_category (hop : Operation l edit l₁) {id : CategoryId} {c : Category}
    (hc : l.category? id = some c) : ∃ c₁, l₁.category? id = some c₁ := by
  by_cases htouched : .categories ∈ edit.touches
  case neg =>
    have hsame := hop.untouched.categories htouched
    exact ⟨c, (congrArg (Register.get? · id) hsame).trans hc⟩
  cases hop with
  | addCategory code affectsBalance action =>
    rw [category?_addCategory]
    split
    · exact ⟨_, rfl⟩
    · exact ⟨c, hc⟩
  | _ => simp [Edit.touches] at htouched

/-- An entry has a category that some entry had before, or one that is there. -/
theorem Operation.category_of_entry (hs : l.Sound) (hop : Operation l edit l₁) {id : EntryId}
    {e₁ : Entry} {c : CategoryId} (he₁ : l₁.entry? id = some e₁) (hc : e₁.category = some c) :
    (∃ i e, l.entry? i = some e ∧ e.category = some c) ∨ ∃ x, l.category? c = some x := by
  have same (h : l.entry? id = some e₁) : ∃ i e, l.entry? i = some e ∧ e.category = some c :=
    ⟨id, e₁, h, hc⟩
  by_cases htouched : .entries ∈ edit.touches
  case neg =>
    have hsame := hop.untouched.entries htouched
    exact .inl (same ((congrArg (Register.get? · id) hsame).symm.trans he₁))
  cases hop with
  | addEntry h =>
    obtain ⟨-, hcategory, -, rfl⟩ := addEntry_eq_ok h
    rw [entry?_attach] at he₁
    split at he₁
    · obtain rfl := Option.some.inj he₁
      exact .inr (hcategory c hc)
    · exact .inl (same he₁)
  | addTransfer h =>
    obtain ⟨_, _, _, _, _, -, -, -, rfl, rfl, -, rfl⟩ := addTransfer_eq_ok h
    rw [entry?_attach, entry?_attach] at he₁
    split at he₁
    · obtain rfl := Option.some.inj he₁
      cases hc
    · split at he₁
      · obtain rfl := Option.some.inj he₁
        cases hc
      · exact .inl (same he₁)
  | setAmount h =>
    obtain ⟨e, he, -, rfl⟩ := setAmount_eq_ok h
    obtain ⟨x, hx, rfl | rfl | rfl⟩ :=
      hs.paired.of_entry?_reviseLegs he he₁ (fun _ => rfl) fun _ => rfl
    all_goals exact .inl ⟨id, _, hx, hc⟩
  | setQuantity h =>
    obtain ⟨e, he, -, rfl⟩ := setQuantity_eq_ok h
    obtain ⟨x, hx, rfl | rfl | rfl⟩ :=
      hs.paired.of_entry?_reviseLegs he he₁ (fun _ => rfl) fun _ => rfl
    all_goals exact .inl ⟨id, _, hx, hc⟩
  | setCategory h =>
    obtain ⟨hcategory, e, he, -, rfl⟩ := setCategory_eq_ok h
    obtain hx | ⟨-, rfl⟩ := of_entry?_put he he₁ rfl
    · exact .inl (same hx)
    · exact .inr (hcategory c hc)
  | setEntryMemo h =>
    obtain ⟨e, he, rfl⟩ := setEntryMemo_eq_ok h
    obtain hx | ⟨hx, rfl⟩ := of_entry?_put he he₁ rfl
    all_goals exact .inl ⟨id, _, hx, hc⟩
  | removeEntry h =>
    obtain ⟨-, x, hx, rfl⟩ := hs.paired.of_entry?_removeEntry h he₁
    exact .inl ⟨id, x, hx, (category_unlinked x _).symm.trans hc⟩
  | dropTransaction => exact .inl (same he₁)
  | _ => simp [Edit.touches] at htouched

theorem Operation.categorized (hs : l.Sound) (h : l.Categorized) (hop : Operation l edit l₁) :
    l₁.Categorized := by
  intro id e₁ c he₁ hc
  have hthere : ∃ x, l.category? c = some x := by
    rcases hop.category_of_entry hs he₁ hc with ⟨i, e, he, hold⟩ | hthere
    · exact h i e c he hold
    · exact hthere
  obtain ⟨x, hx⟩ := hthere
  exact hop.exists_category hx

theorem Reachable.categorized (h : l.Reachable) : l.Categorized :=
  h.reachableBy.keeps (fun _ _ _ _ he => by cases he) (fun _ _ _ => trivial)
    fun _ _ _ hs hcategorized _ hop => hop.categorized hs hcategorized

/-! ## All references -/

/-- What refers to something in a ledger refers to something that is there, which knows of it where it
should; what has a number has one of its own, out of those that were given. -/
structure Integral (l : Ledger) : Prop where
  owner : ∀ id e, l.entry? id = some e →
    ∃ owner t, e.transaction = some owner ∧ l.transaction? owner = some t ∧ t.details.count id = 1
  detail : ∀ id t, l.transaction? id = some t →
    ∀ i ∈ t.details, ∃ e, l.entry? i = some e ∧ e.transaction = some id
  lot : ∀ key lot, l.lot? key = some lot →
    lot.key = key ∧ (∃ e, l.entry? key.purchase = some e) ∧ ∃ e, l.entry? key.sale = some e
  category : ∀ id e c, l.entry? id = some e → e.category = some c → ∃ x, l.category? c = some x
  distinct : (l.inUse.map Numbered.number).Nodup
  numbered : ∀ x ∈ l.inUse, 0 < x.number ∧ x.number ≤ l.issued

theorem Owned.exists_counted (h : l.Owned) {id : EntryId} {e : Entry} (he : l.entry? id = some e) :
    ∃ owner t, e.transaction = some owner ∧ l.transaction? owner = some t ∧
      t.details.count id = 1 := by
  obtain ⟨owner, t, howner, ht, hmem⟩ := h.owner id e he
  exact ⟨owner, t, howner, ht, List.count_eq_one_of_mem (h.nodup owner t ht) hmem⟩

/-- Two things that were given out are told apart by their numbers. -/
theorem History.eq_of_number_eq {given : List Numbered} (h : History given l) {x y : Numbered}
    (hx : x ∈ given) (hy : y ∈ given) (hxy : x.number = y.number) : x = y :=
  List.inj_on_of_nodup_map (h.numbers ▸ nodup_numbersBetween 0 l.issued) hx hy hxy

theorem History.distinct {given : List Numbered} (h : History given l) :
    (l.inUse.map Numbered.number).Nodup :=
  l.nodup_inUse.map_on fun _ hx _ hy => h.eq_of_number_eq (h.mem_given hx) (h.mem_given hy)

theorem History.numbered {given : List Numbered} (h : History given l) {x : Numbered}
    (hx : x ∈ l.inUse) : 0 < x.number ∧ x.number ≤ l.issued := by
  have hnumber := List.mem_map_of_mem (f := Numbered.number) (h.mem_given hx)
  rw [h.numbers] at hnumber
  exact mem_numbersBetween.mp hnumber

theorem Reachable.integral (h : l.Reachable) : l.Integral := by
  obtain ⟨given, hgiven⟩ := h.exists_history
  exact {
    owner := fun _ _ => h.sound.owned.exists_counted
    detail := h.sound.owned.detail
    lot := fun key lot hlot =>
      have hentries := h.lotsFollow.entries key lot hlot
      ⟨key_of_lot hlot, hentries key.purchase (.inl rfl), hentries key.sale (.inr rfl)⟩
    category := h.categorized
    distinct := hgiven.distinct
    numbered := fun _ => hgiven.numbered }

/-- Whatever was done to a ledger, refused edits and sessions included: all references hold, and the
numbers that were given out are those from one up to the counter, each given once, with everything that
is there now among what they were given to. -/
theorem referential_integrity (h : l.Reachable) :
    l.Integral ∧ (∃ given, History given l) ∧ ∀ given, History given l →
      (given.map Numbered.number).Nodup ∧ given.map Numbered.number = numbersBetween 0 l.issued ∧
        ∀ x ∈ l.inUse, x ∈ given := by
  refine ⟨h.integral, h.exists_history, fun given hgiven => ⟨?_, hgiven.numbers, ?_⟩⟩
  · rw [hgiven.numbers]
    exact nodup_numbersBetween 0 l.issued
  · exact fun _ => hgiven.mem_given

/-- Entries come and go, by themselves, with a transaction and with a lot between them; two edits are
refused. -/
def comingAndGoing : List Edit :=
  [.addSecurity "S", .addCategory "fees" true none, .addTransaction ⟨7⟩ (.june 20) (some ⟨1⟩),
    .addEntry ⟨3⟩ none (some 1) (some ⟨2⟩), .addTransfer ⟨3⟩ ⟨8⟩ (some 1) none,
    .addEntry ⟨3⟩ none none (some ⟨99⟩), .addTransaction ⟨7⟩ (.june 21) (some ⟨1⟩),
    .addEntry ⟨8⟩ none (some (-1)) none, .allocateLots ⟨9⟩ [⟨4⟩], .removeTransaction ⟨8⟩,
    .removeEntry ⟨4⟩, .addTransfer ⟨8⟩ ⟨7⟩ (some 1) none, .addEntry ⟨3⟩ (some 1) none (some ⟨2⟩)]

theorem referential_integrity_comingAndGoing :
    ∃ (l : Ledger) (given : List Numbered), l.Reachable ∧ History given l ∧ l.Integral ∧
      l.inUse.map Numbered.number = [1, 2, 3, 5, 6, 7, 10] ∧
      given.map Numbered.number = numbersBetween 0 10 ∧ ∀ x ∈ l.inUse, x ∈ given := by
  have hcheck : (((Ledger.new .standard).performAll comingAndGoing).toOption.any fun l =>
      l.issued = 10 ∧ l.inUse.map Numbered.number = [1, 2, 3, 5, 6, 7, 10]) = true := by
    decide +kernel
  obtain ⟨l, hl, hcheck⟩ := exists_ok_of_any hcheck
  obtain ⟨hissued, hinUse⟩ := of_decide_eq_true hcheck
  have hreachable := (Reachable.new .standard).performAll hl
  obtain ⟨hintegral, ⟨given, hgiven⟩, hhistory⟩ := referential_integrity hreachable
  obtain ⟨-, hnumbers, hmem⟩ := hhistory given hgiven
  exact ⟨l, given, hreachable, hgiven, hintegral, hinUse, hissued ▸ hnumbers, hmem⟩

end Lotbook.Ledger
