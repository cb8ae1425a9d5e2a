/-
# Lotbook.Proofs.Spreads -- dates and securities that go on to linked transactions

Setting the date or the security of a transaction sets it in others as well. Each of them is changed
once, from another value to the new one, and is listed with the value it had; nothing else changes
but the lots, which are derived again (`Spread`). What the links are does not matter for that.
-/
import Lotbook.Proofs.LotChanges

namespace Lotbook.Ledger

/-! ## One field of many transactions -/

/-- A field of transactions that can be set by itself. -/
structure TransactionField (α : Type) where
  get : Transaction → α
  set : Transaction → α → Transaction
  id_set : ∀ t v, (set t v).id = t.id
  get_set : ∀ t v, get (set t v) = v
  /-- Setting the field is revising the transaction. -/
  change_set : ∀ {l : Ledger} {id : TransactionId} {t : Transaction} (v : α),
    l.transaction? id = some t → Change l { l with transactions := l.transactions.put (set t v) }

/-- The day of a transaction. -/
def dateField : TransactionField Date where
  get := Transaction.date
  set t date := { t with date }
  id_set _ _ := rfl
  get_set _ _ := rfl
  change_set {_ _ t} date ht := .reviseTransaction ht t.account date t.security t.memo

/-- The security of a transaction. -/
def securityField : TransactionField (Option SecurityId) where
  get := Transaction.security
  set t security := { t with security }
  id_set _ _ := rfl
  get_set _ _ := rfl
  change_set {_ _ t} security ht := .reviseTransaction ht t.account t.date security t.memo

/-- The field is set in the transactions that are listed, each with its former, other value. -/
structure Spread {α : Type} (field : TransactionField α) (value : α) (l l₁ : Ledger)
    (changes : Changes α) : Prop where
  changed : Changed l l₁
  same : l₁ = { l with transactions := l₁.transactions }
  nodup : (changes.map Prod.fst).Nodup
  listed : ∀ c ∈ changes, ∃ t, l.transaction? c.1 = some t ∧ field.get t = c.2 ∧ c.2 ≠ value
  transaction?_eq : ∀ id, l₁.transaction? id =
    if id ∈ changes.map Prod.fst then (l.transaction? id).map (field.set · value)
    else l.transaction? id

section Spread

variable {α : Type} {field : TransactionField α} {value : α} {l l₁ : Ledger} {changes : Changes α}

theorem spread_nil (field : TransactionField α) (value : α) (l : Ledger) :
    Spread field value l l [] where
  changed := .refl
  same := rfl
  nodup := .nil
  listed _ h := (List.not_mem_nil h).elim
  transaction?_eq _ := rfl

/-- A transaction that is set first is none of those that are set later. -/
theorem Spread.cons {id : TransactionId} {t : Transaction} (ht : l.transaction? id = some t)
    (hne : field.get t ≠ value)
    (h : Spread field value { l with transactions := l.transactions.put (field.set t value) } l₁
      changes) : Spread field value l l₁ ((id, field.get t) :: changes) := by
  have hid : (field.set t value).id = id := (field.id_set t value).trans (id_of_transaction ht)
  have hput : ∀ i, { l with transactions := l.transactions.put (field.set t value) }.transaction? i =
      if i = id then some (field.set t value) else l.transaction? i := by
    intro i
    rw [transaction?_put, hid]
  have hnew : id ∉ changes.map Prod.fst := by
    intro hmem
    obtain ⟨c, hc, rfl⟩ := List.mem_map.mp hmem
    obtain ⟨t', ht', hget, hne'⟩ := h.listed c hc
    rw [hput, if_pos rfl] at ht'
    obtain rfl := Option.some.inj ht'
    exact hne' (hget ▸ field.get_set t value)
  refine ⟨h.changed.head (field.change_set value ht), h.same,
    List.nodup_cons.mpr ⟨hnew, h.nodup⟩, ?_, ?_⟩
  · intro c hc
    rcases List.mem_cons.mp hc with rfl | hc
    · exact ⟨t, ht, rfl, hne⟩
    · obtain ⟨t', ht', hget⟩ := h.listed c hc
      have hci : c.1 ≠ id := fun hci => hnew (hci ▸ List.mem_map.mpr ⟨c, hc, rfl⟩)
      rw [hput, if_neg hci] at ht'
      exact ⟨t', ht', hget⟩
  · intro i
    rw [h.transaction?_eq, hput]
    by_cases hi : i = id
    · simp [hi, hnew, ht]
    · simp only [List.map_cons, List.mem_cons, hi, false_or, if_false]

end Spread

/-! ## Dates -/

theorem redate_spread (l : Ledger) (date : Date) (ids : List TransactionId) :
    Spread dateField date l (l.redate date ids).2 (l.redate date ids).1 := by
  induction ids generalizing l with
  | nil => exact spread_nil dateField date l
  | cons id ids ih =>
    rw [redate]
    split
    · exact ih l
    · rename_i t ht
      split
      · exact ih l
      · rename_i hne
        exact Spread.cons ht hne (ih _)

/-- The lots of which an entry belongs to one of the transactions that were changed. -/
def movedBy {α : Type} (l : Ledger) (changes : Changes α) (key : LotKey) : Bool :=
  l.ownedAmong (changes.map Prod.fst) key.purchase || l.ownedAmong (changes.map Prod.fst) key.sale

theorem setDate_eq_ok {l l₁ : Ledger} {id : TransactionId} {date : Date} {changes : Changes Date}
    (h : l.setDate id date = .ok (changes, l₁)) :
    ∃ l₂, l.redate date (id :: l.linked id false) = (changes, l₂) ∧
      Spread dateField date l l₂ changes ∧ Rederived (l₂.movedBy changes) l₂ l₁ := by
  rw [setDate] at h
  split at h
  · cases h
  · simp only [bind_eq_ok_iff, liftM_fault_eq_ok_iff, pure_eq_ok_iff] at h
    obtain ⟨l₂, hderive, h⟩ := h
    obtain ⟨rfl, rfl⟩ := Prod.mk.inj h
    exact ⟨(l.redate date (id :: l.linked id false)).2, rfl, redate_spread l date _,
      rederiveLotsOfTransactions_eq_ok hderive⟩

/-! ## Securities -/

theorem spreadSecurity_spread (l : Ledger) (source : TransactionId) (security : Option SecurityId)
    (unvisited queue : List TransactionId) :
    Spread securityField security l (l.spreadSecurity source security unvisited queue).2
      (l.spreadSecurity source security unvisited queue).1 := by
  fun_induction l.spreadSecurity source security unvisited queue with
  | case1 => exact spread_nil securityField security _
  | case2 => assumption
  | case3 => assumption
  | case4 l _ _ id _ _ _ t ht hne l₁ queue changes l₂ heq ih =>
    rw [heq] at ih
    exact ih.cons ht hne

theorem setSecurity_eq_ok {l l₁ : Ledger} {id : TransactionId} {security : Option SecurityId}
    {changes : Changes (Option SecurityId)} (h : l.setSecurity id security = .ok (changes, l₁)) :
    ∃ l₂, l.spreadSecurity id security l.transactions.keys [id] = (changes, l₂) ∧
      Spread securityField security l l₂ changes ∧ Rederived (l₂.movedBy changes) l₂ l₁ := by
  rw [setSecurity] at h
  split at h
  · cases h
  · simp only [bind_eq_ok_iff, liftM_fault_eq_ok_iff, pure_eq_ok_iff] at h
    obtain ⟨l₂, hderive, h⟩ := h
    obtain ⟨rfl, rfl⟩ := Prod.mk.inj h
    exact ⟨(l.spreadSecurity id security l.transactions.keys [id]).2, rfl,
      spreadSecurity_spread l id security _ _, rederiveLotsOfTransactions_eq_ok hderive⟩

end Lotbook.Ledger
