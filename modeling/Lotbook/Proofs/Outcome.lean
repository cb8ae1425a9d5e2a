/-
# Lotbook.Proofs.Outcome -- reading off how an operation came out

Operations run in `Except`. A computation that came out well came out well at every step
(`bind_eq_ok_iff`), and whatever every step keeps, a fold over steps keeps (`foldlM_keeps`). Where it is
known of every step what stops it, that is known of the whole (`ComesOut`).
-/
import Lotbook.Failure

namespace Lotbook

variable {ε ε' α β : Type}

theorem bind_eq_ok_iff {x : Except ε α} {f : α → Except ε β} {b : β} :
    (x >>= f) = .ok b ↔ ∃ a, x = .ok a ∧ f a = .ok b := by
  cases x with
  | error e => simp [bind, Except.bind]
  | ok a => simp [bind, Except.bind]

theorem map_eq_ok_iff {x : Except ε α} {f : α → β} {b : β} :
    (f <$> x) = .ok b ↔ ∃ a, x = .ok a ∧ f a = b := by
  cases x with
  | error e => simp [Functor.map, Except.map]
  | ok a => simp [Functor.map, Except.map]

@[simp] theorem pure_eq_ok_iff {a b : α} : (pure a : Except ε α) = .ok b ↔ a = b := by
  simp [pure, Except.pure]

theorem mapError_eq_ok_iff {x : Except ε α} {f : ε → ε'} {a : α} :
    x.mapError f = .ok a ↔ x = .ok a := by
  cases x with
  | error e => exact ⟨(fun h => by cases h), fun h => by cases h⟩
  | ok b =>
    show (Except.ok b : Except ε' α) = .ok a ↔ _
    rw [Except.ok.injEq, Except.ok.injEq]

theorem orError_eq_ok_iff {error : ε} {x : Option α} {a : α} :
    orError error x = .ok a ↔ x = some a := by
  cases x <;> simp [orError]

/-- A failure of arithmetic, of the ledger or of a split is taken over as it is, and so is a result. -/
@[simp] theorem liftM_fault_eq_ok_iff {x : Except ArithmeticFault α} {a : α} :
    (liftM x : Except Failure α) = .ok a ↔ x = .ok a := mapError_eq_ok_iff

@[simp] theorem liftM_ledger_eq_ok_iff {x : Except LedgerError α} {a : α} :
    (liftM x : Except Failure α) = .ok a ↔ x = .ok a := mapError_eq_ok_iff

@[simp] theorem liftM_split_eq_ok_iff {x : Except SplitError α} {a : α} :
    (liftM x : Except Failure α) = .ok a ↔ x = .ok a := mapError_eq_ok_iff

/-- A check lets through what keeps the contract. -/
@[simp] theorem LotContract.check_eq_ok_iff {contract : LotContract} {kept : Prop} [Decidable kept]
    {u : Unit} : contract.check kept = .ok u ↔ kept := by
  unfold check
  split
  · rename_i h
    exact ⟨fun _ => h, fun _ => rfl⟩
  · rename_i h
    exact ⟨(fun hcheck => by cases hcheck), fun hkept => absurd hkept h⟩

theorem LotContract.check_of_kept {contract : LotContract} {kept : Prop} [Decidable kept]
    (h : kept) : contract.check kept = .ok () := if_pos h

theorem LotContract.check_of_not_kept {contract : LotContract} {kept : Prop} [Decidable kept]
    (h : ¬ kept) : contract.check kept = .error (.broken contract) := if_neg h

/-! ## What stops a computation -/

/-- Whether a computation comes to a result as it should, or stops at a contract that may be broken.
Nothing else stops it. -/
def ComesOut (x : Except ArithmeticFault α) (result : α → Prop) (broken : LotContract → Prop) : Prop :=
  (∃ a, x = .ok a ∧ result a) ∨ ∃ contract, x = .error (.broken contract) ∧ broken contract

section ComesOut

variable {x : Except ArithmeticFault α} {f : α → Except ArithmeticFault β} {a : α}
  {result less : α → Prop} {after : β → Prop} {broken weaker : LotContract → Prop}

theorem comesOut_of_eq_ok (hx : x = .ok a) (ha : result a) : ComesOut x result broken := .inl ⟨a, hx, ha⟩

/-- One computation after another comes out if each does. -/
theorem ComesOut.bind (h : ComesOut x result broken) (hf : ∀ a, result a → ComesOut (f a) after broken) :
    ComesOut (x >>= f) after broken := by
  rcases h with ⟨a, rfl, ha⟩ | ⟨contract, rfl, hcontract⟩
  · exact hf a ha
  · exact .inr ⟨contract, rfl, hcontract⟩

theorem ComesOut.map {g : α → β} (h : ComesOut x result broken) (hg : ∀ a, result a → after (g a)) :
    ComesOut (g <$> x) after broken := by
  rcases h with ⟨a, rfl, ha⟩ | ⟨contract, rfl, hcontract⟩
  · exact .inl ⟨g a, rfl, hg a ha⟩
  · exact .inr ⟨contract, rfl, hcontract⟩

/-- A result that is as it should be is what the computation came to. -/
theorem ComesOut.of_result (h : ComesOut x result broken) (hresult : ∀ a, x = .ok a → result a → less a) :
    ComesOut x less broken := by
  rcases h with ⟨a, rfl, ha⟩ | hbroken
  · exact .inl ⟨a, rfl, hresult a rfl ha⟩
  · exact .inr hbroken

/-- What is known of the contracts may be said with less. -/
theorem ComesOut.weaken (h : ComesOut x result broken) (hbroken : ∀ contract, broken contract → weaker contract) :
    ComesOut x result weaker := by
  rcases h with hresult | ⟨contract, hx, hcontract⟩
  · exact .inl hresult
  · exact .inr ⟨contract, hx, hbroken contract hcontract⟩

/-- A check lets through what keeps the contract, and stops at what breaks it. -/
theorem comesOut_check {contract : LotContract} {kept : Prop} [Decidable kept]
    (h : ¬ kept → broken contract) : ComesOut (contract.check kept) (fun _ => kept) broken := by
  by_cases hkept : kept
  · exact .inl ⟨(), LotContract.check_of_kept hkept, hkept⟩
  · exact .inr ⟨contract, LotContract.check_of_not_kept hkept, h hkept⟩

end ComesOut

theorem toOption_eq_some_iff {x : Except ε α} {a : α} : x.toOption = some a ↔ x = .ok a := by
  cases x <;> simp [Except.toOption]

/-- A result that passes a check is a result. -/
theorem exists_ok_of_any {x : Except ε α} {p : α → Bool} (h : x.toOption.any p = true) :
    ∃ a, x = .ok a ∧ p a = true := by
  cases x with
  | ok a => exact ⟨a, rfl, h⟩
  | error e => cases h

theorem foldlM_cons_ok {f : β → α → Except ε β} {x : α} {xs : List α} {b b₁ b₂ : β}
    (hstep : f b x = .ok b₁) (hrest : xs.foldlM f b₁ = .ok b₂) : (x :: xs).foldlM f b = .ok b₂ := by
  rw [List.foldlM_cons, hstep]
  exact hrest

theorem foldlM_append_ok {f : β → α → Except ε β} {xs ys : List α} {b b₁ b₂ : β}
    (hfirst : xs.foldlM f b = .ok b₁) (hrest : ys.foldlM f b₁ = .ok b₂) :
    (xs ++ ys).foldlM f b = .ok b₂ := by
  rw [List.foldlM_append, hfirst]
  exact hrest

/-- What holds at the start of a fold and is kept by each step holds at its end. -/
theorem foldlM_keeps {f : β → α → Except ε β} {P : β → Prop} {xs : List α} {b b' : β}
    (hstep : ∀ b a b', a ∈ xs → P b → f b a = .ok b' → P b') (hb : P b)
    (h : xs.foldlM f b = .ok b') : P b' := by
  induction xs generalizing b with
  | nil =>
    obtain rfl : b = b' := by simpa [pure, Except.pure] using h
    exact hb
  | cons x xs ih =>
    rw [List.foldlM_cons, bind_eq_ok_iff] at h
    obtain ⟨b₁, h₁, h⟩ := h
    exact ih (fun b a b' ha => hstep b a b' (List.mem_cons_of_mem x ha))
      (hstep b x b₁ List.mem_cons_self hb h₁) h

/-- A fold that fails fails at one of its steps. -/
theorem exists_of_foldlM_error {f : β → α → Except ε β} {xs : List α} {b : β} {e : ε}
    (h : xs.foldlM f b = .error e) : ∃ b', ∃ x ∈ xs, f b' x = .error e := by
  induction xs generalizing b with
  | nil => cases h
  | cons x xs ih =>
    rw [List.foldlM_cons] at h
    cases hstep : f b x with
    | error e' =>
      rw [hstep] at h
      obtain rfl : e' = e := Except.error.inj h
      exact ⟨b, x, List.mem_cons_self, hstep⟩
    | ok b₁ =>
      rw [hstep] at h
      obtain ⟨b', y, hy, hlast⟩ := ih h
      exact ⟨b', y, List.mem_cons_of_mem x hy, hlast⟩

/-- What comes of a list is what comes of its members. -/
theorem exists_of_mem_mapM {f : α → Except ε β} {xs : List α} {ys : List β} (h : xs.mapM f = .ok ys)
    {y : β} (hy : y ∈ ys) : ∃ x ∈ xs, f x = .ok y := by
  induction xs generalizing ys with
  | nil =>
    obtain rfl : [] = ys := pure_eq_ok_iff.mp h
    exact (List.not_mem_nil hy).elim
  | cons x xs ih =>
    simp only [List.mapM_cons, bind_eq_ok_iff, pure_eq_ok_iff] at h
    obtain ⟨z, hz, zs, hzs, rfl⟩ := h
    rcases List.mem_cons.mp hy with rfl | hy
    · exact ⟨x, List.mem_cons_self, hz⟩
    · obtain ⟨x', hx', hfx'⟩ := ih hzs hy
      exact ⟨x', List.mem_cons_of_mem x hx', hfx'⟩

/-- Where every result tells what it came of, the results tell the list that they came of. -/
theorem map_eq_of_mapM {f : α → Except ε β} {g : β → α} (hf : ∀ x y, f x = .ok y → g y = x)
    {xs : List α} {ys : List β} (h : xs.mapM f = .ok ys) : ys.map g = xs := by
  induction xs generalizing ys with
  | nil =>
    obtain rfl : [] = ys := pure_eq_ok_iff.mp h
    rfl
  | cons x xs ih =>
    simp only [List.mapM_cons, bind_eq_ok_iff, pure_eq_ok_iff] at h
    obtain ⟨y, hy, zs, hzs, rfl⟩ := h
    rw [List.map_cons, hf x y hy, ih hzs]

/-- Results that are all there come of the whole list, each with what is known of it. -/
theorem exists_mapM_eq_ok {γ : Type} {f : α → Except ε β} {g : β → γ} {k : α → γ} {xs : List α}
    (h : ∀ x ∈ xs, ∃ y, f x = .ok y ∧ g y = k x) : ∃ ys, xs.mapM f = .ok ys ∧ ys.map g = xs.map k := by
  induction xs with
  | nil => exact ⟨[], rfl, rfl⟩
  | cons x xs ih =>
    obtain ⟨y, hy, hknown⟩ := h x List.mem_cons_self
    obtain ⟨ys, hys, hrest⟩ := ih fun z hz => h z (List.mem_cons_of_mem x hz)
    refine ⟨y :: ys, by rw [List.mapM_cons, hy, hys]; rfl, ?_⟩
    rw [List.map_cons, List.map_cons, hknown, hrest]

/-- What is kept of a list is collected in front of what was kept before, the last first. -/
theorem filterAuxM_eq_ok {p : α → Except ε Bool} {xs kept zs : List α}
    (h : xs.filterAuxM p kept = .ok zs) :
    zs = (xs.filter fun x => (p x).toOption.any id).reverse ++ kept := by
  induction xs generalizing kept with
  | nil => exact (pure_eq_ok_iff.mp h).symm
  | cons x xs ih =>
    simp only [List.filterAuxM, bind_eq_ok_iff] at h
    obtain ⟨keep, hkeep, hrest⟩ := h
    rw [ih hrest, List.filter_cons, hkeep]
    cases keep with
    | false => rfl
    | true => simp [Except.toOption]

/-- Keeping what a test finds true is keeping what it is true of. -/
theorem filterM_eq_ok {p : α → Except ε Bool} {xs ys : List α} (h : xs.filterM p = .ok ys) :
    ys = xs.filter fun x => (p x).toOption.any id := by
  simp only [List.filterM, bind_eq_ok_iff, pure_eq_ok_iff] at h
  obtain ⟨zs, hzs, rfl⟩ := h
  rw [filterAuxM_eq_ok hzs, List.append_nil, List.reverse_reverse]

theorem mem_filterM_iff {p : α → Except ε Bool} {xs ys : List α} (h : xs.filterM p = .ok ys) {y : α} :
    y ∈ ys ↔ y ∈ xs ∧ p y = .ok true := by
  rw [filterM_eq_ok h, List.mem_filter]
  cases hy : p y <;> simp [Except.toOption]

/-- A test that comes out for every member keeps some of them. -/
theorem exists_filterM_eq_ok {p : α → Except ε Bool} {xs : List α} (h : ∀ x ∈ xs, ∃ b, p x = .ok b) :
    ∃ ys, xs.filterM p = .ok ys := by
  have haux : ∀ kept, ∃ zs, xs.filterAuxM p kept = .ok zs := by
    induction xs with
    | nil => exact fun kept => ⟨kept, rfl⟩
    | cons x xs ih =>
      intro kept
      obtain ⟨b, hb⟩ := h x List.mem_cons_self
      obtain ⟨zs, hzs⟩ := ih (fun y hy => h y (List.mem_cons_of_mem x hy)) (cond b (x :: kept) kept)
      exact ⟨zs, by rw [List.filterAuxM, hb]; exact hzs⟩
  obtain ⟨zs, hzs⟩ := haux []
  exact ⟨zs.reverse, by rw [List.filterM, hzs]; rfl⟩

theorem sublist_of_filterM {p : α → Except ε Bool} {xs ys : List α} (h : xs.filterM p = .ok ys) :
    ys.Sublist xs :=
  filterM_eq_ok h ▸ List.filter_sublist

end Lotbook
