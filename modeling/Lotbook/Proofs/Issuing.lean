/-
# Lotbook.Proofs.Issuing -- every number is given once

Securities, categories, transactions and entries get their numbers from one counter. What an edit gives
out are the next numbers in order (`Ledger.Operation.numbers`), and nothing comes into a ledger under
any other number (`Ledger.Operation.mem_inUse`). After any edits, refused ones and sessions included,
the numbers from one up to the counter were given out, each of them once (`Ledger.History.numbers`):
what was removed stays the only thing that ever had its number.
-/
import Lotbook.Proofs.Frames
import Lotbook.Proofs.Runs

namespace Lotbook

/-! ## What has a number -/

/-- A thing that a ledger gave a number to. -/
inductive Numbered where
  | security (id : SecurityId)
  | category (id : CategoryId)
  | transaction (id : TransactionId)
  | entry (id : EntryId)
  deriving DecidableEq

/-- The number that it was given. -/
def Numbered.number : Numbered → Int
  | .security id => id.number
  | .category id => id.number
  | .transaction id => id.number
  | .entry id => id.number

namespace Ledger

variable {l l₁ : Ledger} {edit : Edit}

/-- What there is in a ledger under a number. -/
def inUse (l : Ledger) : List Numbered :=
  l.securities.keys.map .security ++ l.categories.keys.map .category ++
    l.transactions.keys.map .transaction ++ l.entries.keys.map .entry

@[simp] theorem security_mem_inUse {id : SecurityId} :
    .security id ∈ l.inUse ↔ ∃ s, l.security? id = some s := by
  simp [inUse, Register.mem_keys_iff, security?]

@[simp] theorem category_mem_inUse {id : CategoryId} :
    .category id ∈ l.inUse ↔ ∃ c, l.category? id = some c := by
  simp [inUse, Register.mem_keys_iff, category?]

@[simp] theorem transaction_mem_inUse {id : TransactionId} :
    .transaction id ∈ l.inUse ↔ ∃ t, l.transaction? id = some t := by
  simp [inUse, Register.mem_keys_iff, transaction?]

@[simp] theorem entry_mem_inUse {id : EntryId} :
    .entry id ∈ l.inUse ↔ ∃ e, l.entry? id = some e := by
  simp [inUse, Register.mem_keys_iff, entry?]

/-- Nothing is twice in a ledger. -/
theorem nodup_inUse (l : Ledger) : l.inUse.Nodup := by
  have keys {α κ : Type} [Keyed α κ] [Ranked κ] (r : Register α) {f : κ → Numbered}
      (hf : Function.Injective f) : (r.keys.map f).Nodup := r.nodup_keys.map hf
  -- within a kind by the keys, between the kinds since they are told apart
  refine List.nodup_append.mpr ⟨List.nodup_append.mpr ⟨List.nodup_append.mpr ⟨?_, ?_, ?_⟩, ?_, ?_⟩,
    ?_, ?_⟩
  case refine_1 => exact keys l.securities fun _ _ => Numbered.security.inj
  case refine_2 => exact keys l.categories fun _ _ => Numbered.category.inj
  case refine_4 => exact keys l.transactions fun _ _ => Numbered.transaction.inj
  case refine_6 => exact keys l.entries fun _ _ => Numbered.entry.inj
  all_goals
    intro x hx y hy
    simp only [List.mem_append, List.mem_map] at hx hy
    rintro rfl
    grind

/-! ## What edits give out -/

/-- What an edit of a ledger gives a number to, in the order of the numbers: as it says itself, and for
a transfer also the transaction of the other leg. -/
def Edit.given (l : Ledger) : Edit → List Numbered
  | .addSecurity name => [.security (l.addSecurity name).1]
  | .addCategory code affectsBalance action =>
      [.category (l.addCategory code affectsBalance action).1]
  | .addTransaction account date security =>
      [.transaction (l.addTransaction account date security).1]
  | .addEntry transaction amount quantity category =>
      match l.addEntry transaction amount quantity category with
      | .ok (id, _) => [.entry id]
      | .error _ => []
  | .addTransfer transaction otherAccount amount quantity =>
      match l.addTransfer transaction otherAccount amount quantity with
      | .ok ((leg, otherLeg), l₁) =>
          ((Ledger.entry? l₁ otherLeg).bind Entry.transaction).toList.map .transaction ++
            [.entry leg, .entry otherLeg]
      | .error _ => []
  | _ => []

/-- Whether an edit makes something that has a number. -/
def Edit.gives : Edit → Bool
  | .addSecurity _ | .addCategory .. | .addTransaction .. | .addEntry .. | .addTransfer .. => true
  | _ => false

theorem Edit.given_eq_nil (h : edit.gives = false) : edit.given l = [] := by
  cases edit <;> first | rfl | cases h

/-- An edit that is refused gives nothing out. -/
theorem Edit.given_of_refused {refusal : Option Failure} (hedit : l.perform edit = .ok (refusal, l₁))
    (hrefused : refusal.isSome) : edit.given l = [] := by
  cases hgives : edit.gives with
  | false => exact Edit.given_eq_nil hgives
  | true =>
    cases edit with
    | addEntry transaction amount quantity category =>
      rcases settle_eq_iff.mp (Except.ok.inj hedit) with ⟨-, rfl⟩ | ⟨e, herror, -⟩
      · cases hrefused
      · cases hadd : l.addEntry transaction amount quantity category with
        | ok r => rw [hadd] at herror; cases herror
        | error e => simp only [Edit.given, hadd]
    | addTransfer transaction otherAccount amount quantity =>
      rcases settle_eq_iff.mp (Except.ok.inj hedit) with ⟨-, rfl⟩ | ⟨e, herror, -⟩
      · cases hrefused
      · cases hadd : l.addTransfer transaction otherAccount amount quantity with
        | ok r => rw [hadd] at herror; cases herror
        | error e => simp only [Edit.given, hadd]
    | addSecurity | addCategory | addTransaction =>
      obtain ⟨rfl, -⟩ := Prod.mk.inj (Except.ok.inj hedit)
      cases hrefused
    | _ => cases hgives

theorem given_addEntry {transaction : TransactionId} {amount quantity : Option Decimal}
    {category : Option CategoryId} {id : EntryId}
    (h : l.addEntry transaction amount quantity category = .ok (id, l₁)) :
    (Edit.addEntry transaction amount quantity category).given l = [.entry ⟨l.issued + 1⟩] := by
  obtain ⟨-, -, rfl, -⟩ := addEntry_eq_ok h
  simp only [Edit.given, h]

/-- The transaction of the other leg has its number before the legs. -/
theorem given_addTransfer (hs : l.Given) {transaction : TransactionId} {otherAccount : AccountId}
    {amount quantity : Option Decimal} {legs : EntryId × EntryId}
    (h : l.addTransfer transaction otherAccount amount quantity = .ok (legs, l₁)) :
    (Edit.addTransfer transaction otherAccount amount quantity).given l =
      [.transaction ⟨l.issued + 1⟩, .entry ⟨l.issued + 2⟩, .entry ⟨l.issued + 3⟩] := by
  obtain ⟨_, _, _, _, o, -, -, -, -, ⟨howner, -, -⟩, -, hentry⟩ := addTransfer_lookUps hs h
  obtain ⟨_, _, _, _, _, -, -, -, rfl, rfl, rfl, -⟩ := addTransfer_eq_ok h
  have hother : l₁.entry? ⟨l.issued + 3⟩ = some o := (hentry _).trans (if_pos rfl)
  simp [Edit.given, h, hother, howner]

/-- An edit that makes nothing with a number leaves the counter. -/
theorem Operation.issued_eq (hop : Operation l edit l₁) (hgives : edit.gives = false) :
    l₁.issued = l.issued := by
  cases hop with
  | addSplit h =>
    obtain ⟨_, _, -, -, rfl, hrederived⟩ := addSplit_eq_ok h
    rw [hrederived.same]
    rfl
  | removeSplit h =>
    obtain ⟨_, -, -, ⟨-, rfl⟩ | ⟨-, _, rfl, hrederived⟩⟩ := removeSplit_eq_ok h
    · rfl
    · rw [hrederived.same]
      rfl
  | setDate h =>
    obtain ⟨l₂, -, hspread, hrederived⟩ := setDate_eq_ok h
    rw [hrederived.same, hspread.same]
  | setSecurity h =>
    obtain ⟨l₂, -, hspread, hrederived⟩ := setSecurity_eq_ok h
    rw [hrederived.same, hspread.same]
  | setAccount h =>
    obtain ⟨_, -, -, rfl⟩ := setAccount_eq_ok h
    rfl
  | setTransactionMemo h =>
    obtain ⟨_, -, rfl⟩ := setTransactionMemo_eq_ok h
    rfl
  | setAmount h =>
    obtain ⟨_, -, -, rfl⟩ := setAmount_eq_ok h
    rw [reviseLegs_eq]
  | setQuantity h =>
    obtain ⟨_, -, -, rfl⟩ := setQuantity_eq_ok h
    rw [reviseLegs_eq]
  | setCategory h =>
    obtain ⟨-, _, -, -, rfl⟩ := setCategory_eq_ok h
    rfl
  | setEntryMemo h =>
    obtain ⟨_, -, rfl⟩ := setEntryMemo_eq_ok h
    rfl
  | removeEntry h =>
    obtain ⟨_, -, -, -, -, -, hl₁⟩ := removeEntry_eq_ok h
    rw [hl₁]
  | insertLot h =>
    obtain ⟨-, -, -, rfl⟩ := insertLot_eq_ok h
    rfl
  | setLotShares h =>
    obtain ⟨_, _, -, -, rfl⟩ := setLotShares_eq_ok h
    rfl
  | removeLot h =>
    obtain ⟨-, rfl⟩ := removeLot_eq_ok h
    rfl
  | dropTransaction => rfl
  | addSecurity | addCategory | addTransaction | addEntry | addTransfer => cases hgives

/-- The numbers after one, up to another. -/
def numbersBetween (m n : Nat) : List Int := (List.range' (m + 1) (n - m)).map (↑)

/-- The numbers up to one and the numbers after it follow on each other. -/
theorem numbersBetween_append {m n k : Nat} (hmn : m ≤ n) (hnk : n ≤ k) :
    numbersBetween m n ++ numbersBetween n k = numbersBetween m k := by
  obtain ⟨i, rfl⟩ := Nat.exists_eq_add_of_le hmn
  obtain ⟨j, rfl⟩ := Nat.exists_eq_add_of_le hnk
  have hjoin := List.range'_append_1 (s := m + 1) (m := i) (n := j)
  rw [numbersBetween, numbersBetween, numbersBetween, ← List.map_append]
  congr 1
  rw [show m + i - m = i by omega, show m + i + j - (m + i) = j by omega,
    show m + i + j - m = i + j by omega, ← hjoin]
  congr 2
  omega

/-- What an operation gives out has the next numbers. -/
theorem Operation.numbers (hs : l.Given) (hop : Operation l edit l₁) :
    (edit.given l).map Numbered.number = numbersBetween l.issued l₁.issued := by
  cases hgives : edit.gives with
  | false =>
    rw [Edit.given_eq_nil hgives, hop.issued_eq hgives]
    simp [numbersBetween]
  | true =>
    have next (hissued : l₁.issued = l.issued + 1) :
        numbersBetween l.issued l₁.issued = [(l.issued : Int) + 1] := by
      simp [numbersBetween, hissued]
    cases hop with
    | addSecurity | addCategory | addTransaction => exact (next rfl).symm
    | addEntry h =>
      obtain ⟨-, -, -, rfl⟩ := addEntry_eq_ok h
      rw [given_addEntry h, next rfl]
      rfl
    | addTransfer h =>
      rw [given_addTransfer hs h]
      obtain ⟨_, _, _, _, _, -, -, -, -, -, -, rfl⟩ := addTransfer_eq_ok h
      simp [numbersBetween, Numbered.number, List.range', add_assoc]
    | _ => cases hgives

/-! ## What comes into a ledger -/

/-- A security was there before, or its number was given out. Only adding one brings one in: what is done
to the splits of one revises a security that is there. -/
theorem Operation.security? (hop : Operation l edit l₁) {id : SecurityId} {s₁ : Security}
    (hs₁ : l₁.security? id = some s₁) :
    (∃ s, l.security? id = some s) ∨ .security id ∈ edit.given l := by
  have revised {s : Security} {i : SecurityId} {history : SplitHistory} (hs : l.security? i = some s)
      (h : (l.withHistory s history).security? id = some s₁) : ∃ s, l.security? id = some s := by
    rw [security?_withHistory] at h
    split at h
    · rename_i hid
      exact ⟨s, hid.trans (id_of_security hs) ▸ hs⟩
    · exact ⟨s₁, h⟩
  by_cases htouched : .securities ∈ edit.touches
  case neg =>
    have hsame := hop.untouched.securities htouched
    exact .inl ⟨s₁, (congrArg (Register.get? · id) hsame).symm.trans hs₁⟩
  cases hop with
  | addSecurity name =>
    rw [security?_addSecurity] at hs₁
    split at hs₁
    · rename_i hid
      exact .inr (hid ▸ List.mem_cons_self)
    · exact .inl ⟨s₁, hs₁⟩
  | addSplit h =>
    obtain ⟨s, _, hs, -, rfl, hrederived⟩ := addSplit_eq_ok h
    rw [hrederived.same] at hs₁
    exact .inl (revised hs hs₁)
  | removeSplit h =>
    obtain ⟨s, hs, -, ⟨-, rfl⟩ | ⟨-, _, rfl, hrederived⟩⟩ := removeSplit_eq_ok h
    · exact .inl ⟨s₁, hs₁⟩
    · rw [hrederived.same] at hs₁
      exact .inl (revised hs hs₁)
  | _ => simp [Edit.touches] at htouched

/-- A category was there before, or its number was given out. -/
theorem Operation.category? (hop : Operation l edit l₁) {id : CategoryId} {c₁ : Category}
    (hc₁ : l₁.category? id = some c₁) :
    (∃ c, l.category? id = some c) ∨ .category id ∈ edit.given l := by
  by_cases htouched : .categories ∈ edit.touches
  case neg =>
    have hsame := hop.untouched.categories htouched
    exact .inl ⟨c₁, (congrArg (Register.get? · id) hsame).symm.trans hc₁⟩
  cases hop with
  | addCategory code affectsBalance action =>
    rw [category?_addCategory] at hc₁
    split at hc₁
    · rename_i hid
      exact .inr (hid ▸ List.mem_cons_self)
    · exact .inl ⟨c₁, hc₁⟩
  | _ => simp [Edit.touches] at htouched

/-- A transaction was there before, or its number was given out. -/
theorem Operation.transaction_given (hs : l.Sound) (hop : Operation l edit l₁) {id : TransactionId}
    {t₁ : Transaction} (ht₁ : l₁.transaction? id = some t₁) :
    (∃ t, l.transaction? id = some t) ∨ .transaction id ∈ edit.given l := by
  rcases hop.transaction? hs ht₁ with ⟨t, ht, -⟩ | hnew
  · exact .inl ⟨t, ht⟩
  cases hgives : edit.gives with
  | false =>
    have hissued := (hop.changed.sound hs).given.transaction id t₁ ht₁
    rw [hop.issued_eq hgives] at hissued
    omega
  | true =>
    cases hop with
    | addTransaction account date security =>
      rw [transaction?_addTransaction] at ht₁
      split at ht₁
      · rename_i hid
        exact .inr (hid ▸ List.mem_cons_self)
      · exact .inl ⟨t₁, ht₁⟩
    | addEntry h =>
      obtain ⟨-, -, rfl, rfl⟩ := addEntry_eq_ok h
      rw [transaction?_attach _ rfl] at ht₁
      split at ht₁
      · obtain ⟨t, ht, -⟩ := Option.map_eq_some_iff.mp ht₁
        exact .inl ⟨t, ht⟩
      · exact .inl ⟨t₁, ht₁⟩
    | addTransfer h =>
      rw [given_addTransfer hs.given h]
      obtain ⟨_, _, _, _, _, -, -, -, -, -, htransaction, -⟩ := addTransfer_lookUps hs.given h
      rw [htransaction] at ht₁
      split at ht₁
      · rename_i hid
        exact .inr (hid ▸ List.mem_cons_self)
      · split at ht₁
        · obtain ⟨t, ht, -⟩ := Option.map_eq_some_iff.mp ht₁
          exact .inl ⟨t, ht⟩
        · exact .inl ⟨t₁, ht₁⟩
    | addSecurity | addCategory => exact .inl ⟨t₁, ht₁⟩
    | _ => cases hgives

/-- An entry was there before, or its number was given out. -/
theorem Operation.entry_given (hs : l.Sound) (hop : Operation l edit l₁) {id : EntryId} {e₁ : Entry}
    (he₁ : l₁.entry? id = some e₁) : (∃ e, l.entry? id = some e) ∨ .entry id ∈ edit.given l := by
  rcases hop.entry? hs he₁ with ⟨e, he, -⟩ | ⟨hnew, -⟩
  · exact .inl ⟨e, he⟩
  cases hgives : edit.gives with
  | false =>
    have hissued := (hop.changed.sound hs).given.entry id e₁ he₁
    rw [hop.issued_eq hgives] at hissued
    omega
  | true =>
    cases hop with
    | addEntry h =>
      rw [given_addEntry h]
      obtain ⟨-, -, rfl, rfl⟩ := addEntry_eq_ok h
      rw [entry?_attach] at he₁
      split at he₁
      · rename_i hid
        exact .inr (hid ▸ List.mem_cons_self)
      · exact .inl ⟨e₁, he₁⟩
    | addTransfer h =>
      rw [given_addTransfer hs.given h]
      obtain ⟨_, _, _, _, _, -, -, -, -, -, -, hentry⟩ := addTransfer_lookUps hs.given h
      rw [hentry] at he₁
      split at he₁
      · rename_i hid
        exact .inr (by simp [hid])
      · split at he₁
        · rename_i hid
          exact .inr (by simp [hid])
        · exact .inl ⟨e₁, he₁⟩
    | addSecurity | addCategory | addTransaction => exact .inl ⟨e₁, he₁⟩
    | _ => cases hgives

/-- Whatever an operation leaves was there before, or was given out by the operation. -/
theorem Operation.mem_inUse (hs : l.Sound) (hop : Operation l edit l₁) {x : Numbered}
    (hx : x ∈ l₁.inUse) : x ∈ l.inUse ∨ x ∈ edit.given l := by
  cases x with
  | security id =>
    obtain ⟨s₁, hs₁⟩ := security_mem_inUse.mp hx
    exact (hop.security? hs₁).imp_left security_mem_inUse.mpr
  | category id =>
    obtain ⟨c₁, hc₁⟩ := category_mem_inUse.mp hx
    exact (hop.category? hc₁).imp_left category_mem_inUse.mpr
  | transaction id =>
    obtain ⟨t₁, ht₁⟩ := transaction_mem_inUse.mp hx
    exact (hop.transaction_given hs ht₁).imp_left transaction_mem_inUse.mpr
  | entry id =>
    obtain ⟨e₁, he₁⟩ := entry_mem_inUse.mp hx
    exact (hop.entry_given hs he₁).imp_left entry_mem_inUse.mpr

/-! ## Whole edits -/

/-- From one ledger to another, the numbers of what was given out follow each other, and nothing else
came in. -/
structure Issues (l : Ledger) (given : List Numbered) (l₁ : Ledger) : Prop where
  issued_le : l.issued ≤ l₁.issued
  numbers : given.map Numbered.number = numbersBetween l.issued l₁.issued
  inUse : ∀ x ∈ l₁.inUse, x ∈ l.inUse ∨ x ∈ given

theorem issues_refl (l : Ledger) : Issues l [] l where
  issued_le := Nat.le_refl _
  numbers := by simp [numbersBetween]
  inUse _ hx := .inl hx

/-- What is given out on the way to a ledger and on from it is given out one after the other. -/
theorem Issues.trans {l₂ : Ledger} {given given' : List Numbered} (h : Issues l given l₁)
    (h' : Issues l₁ given' l₂) : Issues l (given ++ given') l₂ where
  issued_le := h.issued_le.trans h'.issued_le
  numbers := by
    rw [List.map_append, h.numbers, h'.numbers, numbersBetween_append h.issued_le h'.issued_le]
  inUse x hx := by
    rcases h'.inUse x hx with hx₁ | hx₁
    · exact (h.inUse x hx₁).imp_right (List.mem_append_left _)
    · exact .inr (List.mem_append_right _ hx₁)

theorem Operation.issues (hs : l.Sound) (hop : Operation l edit l₁) : Issues l (edit.given l) l₁ where
  issued_le := hop.changed.issued_le
  numbers := hop.numbers hs.given
  inUse _ := hop.mem_inUse hs

/-- Operations that give nothing out leave the counter, and nothing comes in. -/
theorem Operations.issues (hs : l.Sound) (hops : Operations (fun _ edit => edit.gives = false) l l₁) :
    Issues l [] l₁ := by
  induction hops with
  | refl => exact issues_refl l
  | @tail l₂ l₃ hbefore hlast ih =>
    obtain ⟨edit, hgives, hop⟩ := hlast
    have hlast := hop.issues (Operations.sound hbefore hs)
    rw [Edit.given_eq_nil hgives] at hlast
    exact ih.trans hlast

theorem Edit.gives_of_isPart (hpart : edit.isPart = true) : edit.gives = false := by
  cases edit <;> first | rfl | cases hpart

/-- An edit gives out what it says. One that is made of several operations gives out nothing, nor does one
that is refused. -/
theorem Sound.perform_issues (h : l.Sound) {refusal : Option Failure}
    (hedit : l.perform edit = .ok (refusal, l₁)) : Issues l (edit.given l) l₁ := by
  cases hgives : edit.gives with
  | false =>
    rw [Edit.given_eq_nil hgives]
    exact Operations.issues h
      (h.perform_operations (fun _ _ => Edit.gives_of_isPart) hgives hedit)
  | true =>
    have hsingle : edit.isCompound = false := by
      cases edit <;> first | rfl | cases hgives
    rcases perform_single hsingle hedit with ⟨-, hop⟩ | ⟨hrefused, rfl⟩
    · exact hop.issues h
    · rw [Edit.given_of_refused hedit hrefused]
      exact issues_refl l₁

end Ledger

/-- What an edit in a session gives out: what the edit of the ledger gives out that it carries out. -/
def Session.Edit.given (s : Session) (edit : Session.Edit) : List Numbered :=
  (edit.direct s.ledger.settings).given s.ledger

/-- An edit in a session gives out what the edit of the ledger does; one that deletes gives out nothing. -/
theorem Session.perform_issues {s s₁ : Session} (hs : s.ledger.Sound) {edit : Session.Edit}
    {refusal : Option Failure} (hedit : s.perform edit = .ok (refusal, s₁)) :
    s.ledger.Issues (edit.given s) s₁.ledger := by
  cases hdeletes : edit.deletes with
  | false => exact hs.perform_issues (perform_direct_of_ok hdeletes hedit)
  | true =>
    have hgives : (edit.direct s.ledger.settings).gives = false := by
      cases edit <;> first | rfl | cases hdeletes
    rw [Session.Edit.given, Ledger.Edit.given_eq_nil hgives]
    exact Ledger.Operations.issues hs
      (perform_operations (fun _ _ => Ledger.Edit.gives_of_isPart) hs hgives hedit)

/-! ## Histories -/

namespace Ledger

variable {l : Ledger} {given : List Numbered}

/-- The ledgers that come of any edits, with all that was given out on the way, in order. -/
inductive History : List Numbered → Ledger → Prop
  | new (settings : Settings) : History [] (.new settings)
  | edit {l l₁ : Ledger} {given : List Numbered} {edit : Edit} {refusal : Option Failure}
      (h : History given l) (hedit : l.perform edit = .ok (refusal, l₁)) :
      History (given ++ edit.given l) l₁
  | session {s s₁ : Session} {given : List Numbered} {edit : Session.Edit} {refusal : Option Failure}
      (h : History given s.ledger) (hedit : s.perform edit = .ok (refusal, s₁)) :
      History (given ++ edit.given s) s₁.ledger

theorem History.reachable (h : History given l) : l.Reachable := by
  induction h with
  | new settings => exact .new settings
  | edit _ hedit ih => exact .edit ih hedit
  | session _ hedit ih => exact .session ih hedit

/-- Every reachable ledger has a history. -/
theorem Reachable.exists_history (h : l.Reachable) : ∃ given, History given l := by
  induction h with
  | new settings => exact ⟨[], .new settings⟩
  | edit _ hedit ih =>
    obtain ⟨given, hgiven⟩ := ih
    exact ⟨_, hgiven.edit hedit⟩
  | session _ hedit ih =>
    obtain ⟨given, hgiven⟩ := ih
    exact ⟨_, hgiven.session hedit⟩

/-- A history gives out all that came into its ledger since it was empty. -/
theorem History.issues (h : History given l) : Issues (.new l.settings) given l := by
  have start {settings settings' : Settings} {given : List Numbered} {l : Ledger}
      (h : Issues (.new settings) given l) : Issues (.new settings') given l :=
    ⟨h.issued_le, h.numbers, h.inUse⟩
  induction h with
  | new settings => exact issues_refl _
  | edit hbefore hedit ih => exact start (ih.trans (hbefore.reachable.sound.perform_issues hedit))
  | session hbefore hedit ih =>
    exact start (ih.trans (Session.perform_issues hbefore.reachable.sound hedit))

/-- The numbers that were given out are those from one up to the counter, in this order. -/
theorem History.numbers (h : History given l) :
    given.map Numbered.number = numbersBetween 0 l.issued := h.issues.numbers

theorem nodup_numbersBetween (m n : Nat) : (numbersBetween m n).Nodup :=
  List.Nodup.map Nat.cast_injective List.nodup_range'

theorem mem_numbersBetween {m n : Nat} {i : Int} : i ∈ numbersBetween m n ↔ m < i ∧ i ≤ n := by
  simp only [numbersBetween, List.mem_map, List.mem_range'_1]
  constructor
  · rintro ⟨k, hk, rfl⟩
    omega
  · intro hi
    exact ⟨i.toNat, by omega, by omega⟩

/-- What is in a ledger was given out, and not removed since. -/
theorem History.mem_given (h : History given l) {x : Numbered} (hx : x ∈ l.inUse) : x ∈ given := by
  rcases h.issues.inUse x hx with hnew | hgiven
  · cases hnew
  · exact hgiven

end Ledger

end Lotbook
