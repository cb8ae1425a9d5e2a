/-
# Lotbook.Register -- finite collections ordered by the keys of their items

A register holds at most one item under each key, in ascending order of keys, and every item carries
its own key. Two registers that answer every look-up alike are equal (`ext_get?`), whatever the order
of the changes that made them.
-/
import Lotbook.Order

namespace Lotbook

/-- A type whose values carry the key they are filed under. -/
class Keyed (α : Type) (κ : outParam Type) where
  key : α → κ

export Keyed (key)

/-- Items in ascending order of their keys, no two under the same key. -/
structure Register (α : Type) {κ : Type} [Keyed α κ] [Ranked κ] where
  items : List α
  sorted : items.Pairwise fun a b => key a < key b

namespace Register

variable {α κ : Type} [Keyed α κ] [Ranked κ]

/-- The register without items. -/
def empty : Register α := ⟨[], .nil⟩

instance : EmptyCollection (Register α) := ⟨empty⟩

instance : Inhabited (Register α) := ⟨empty⟩

theorem ext_items {r s : Register α} (h : r.items = s.items) : r = s := by
  cases r; cases s; cases h; rfl

instance [DecidableEq α] : DecidableEq (Register α) := fun r s =>
  decidable_of_iff (r.items = s.items) ⟨ext_items, fun h => h ▸ rfl⟩

/-! ## Filing an item -/

/-- Puts an item in its place in an ordered list, over the item under its key if there is one. -/
def file (x : α) : List α → List α
  | [] => [x]
  | y :: ys =>
      if key y < key x then y :: file x ys
      else if key x < key y then x :: y :: ys
      else x :: ys

theorem mem_file_of_mem {x y : α} {ys : List α} (h : y ∈ file x ys) : y = x ∨ y ∈ ys := by
  induction ys with
  | nil => simpa [file] using h
  | cons z zs ih => grind [file]

theorem file_sorted (x : α) {ys : List α} (h : ys.Pairwise fun a b => key a < key b) :
    (file x ys).Pairwise fun a b => key a < key b := by
  induction ys with
  | nil => simp [file]
  | cons y ys ih =>
    obtain ⟨hy, hys⟩ := List.pairwise_cons.mp h
    rw [file]
    split
    · rename_i hlt
      refine List.pairwise_cons.mpr ⟨fun z hz => ?_, ih hys⟩
      rcases mem_file_of_mem hz with rfl | hz
      · exact hlt
      · exact hy z hz
    · split
      · rename_i hlt
        refine List.pairwise_cons.mpr ⟨fun z hz => ?_, h⟩
        rcases List.mem_cons.mp hz with rfl | hz
        · exact hlt
        · exact Ranked.lt_trans hlt (hy z hz)
      · rename_i hyx hxy
        have heq : key x = key y := by
          rcases Ranked.lt_or_eq_or_gt (key x) (key y) with h | h | h
          · exact absurd h hxy
          · exact h
          · exact absurd h hyx
        exact List.pairwise_cons.mpr ⟨fun z hz => heq ▸ hy z hz, hys⟩

/-- Files an item under its key, in place of the item that was there. -/
def put (x : α) (r : Register α) : Register α := ⟨file x r.items, file_sorted x r.sorted⟩

/-- Files the items of a list one after the other. -/
def ofList (xs : List α) : Register α := xs.foldl (fun r x => r.put x) empty

/-! ## Ordered lists -/

/-- No two items of an ordered list have the same key. -/
theorem eq_of_key_eq {xs : List α} (h : xs.Pairwise fun a b => key a < key b) {x y : α}
    (hx : x ∈ xs) (hy : y ∈ xs) (hk : key x = key y) : x = y := by
  induction xs with
  | nil => cases hx
  | cons z zs ih =>
    obtain ⟨hz, hzs⟩ := List.pairwise_cons.mp h
    rcases List.mem_cons.mp hx with rfl | hx' <;> rcases List.mem_cons.mp hy with rfl | hy'
    · rfl
    · exact absurd hk (Ranked.ne_of_lt (hz y hy'))
    · exact absurd hk.symm (Ranked.ne_of_lt (hz x hx'))
    · exact ih hzs hx' hy'

/-- Filing puts the item in and takes out what was under its key. -/
theorem mem_file_iff {x y : α} {ys : List α} (h : ys.Pairwise fun a b => key a < key b) :
    y ∈ file x ys ↔ y = x ∨ (y ∈ ys ∧ key y ≠ key x) := by
  induction ys with
  | nil => simp [file]
  | cons z zs ih =>
    obtain ⟨hz, hzs⟩ := List.pairwise_cons.mp h
    rw [file]
    split
    · rename_i hlt
      have := Ranked.ne_of_lt hlt
      simp only [List.mem_cons, ih hzs]
      grind
    · split
      · rename_i hlt
        have : ∀ w ∈ z :: zs, key w ≠ key x := by
          intro w hw e
          rcases List.mem_cons.mp hw with rfl | hw
          · exact Ranked.lt_irrefl _ (e ▸ hlt)
          · exact Ranked.lt_irrefl _ (Ranked.lt_trans (e ▸ hlt) (hz w hw))
        simp only [List.mem_cons] at *
        grind
      · rename_i hzx hxz
        have heq : key x = key z := by
          rcases Ranked.lt_or_eq_or_gt (key x) (key z) with h | h | h
          · exact absurd h hxz
          · exact h
          · exact absurd h hzx
        have : ∀ w ∈ zs, key w ≠ key x := fun w hw => heq ▸ (Ranked.ne_of_lt (hz w hw)).symm
        simp only [List.mem_cons]
        grind

/-- Two lists in ascending order with the same items are equal. -/
theorem eq_of_mem_iff {xs ys : List α} (hx : xs.Pairwise fun a b => key a < key b)
    (hy : ys.Pairwise fun a b => key a < key b) (h : ∀ z, z ∈ xs ↔ z ∈ ys) : xs = ys := by
  induction xs generalizing ys with
  | nil => cases ys with
    | nil => rfl
    | cons y ys => exact absurd ((h y).mpr (List.mem_cons_self ..)) (List.not_mem_nil)
  | cons x xs ih =>
    cases ys with
    | nil => exact absurd ((h x).mp (List.mem_cons_self ..)) (List.not_mem_nil)
    | cons y ys =>
      obtain ⟨hx₁, hx₂⟩ := List.pairwise_cons.mp hx
      obtain ⟨hy₁, hy₂⟩ := List.pairwise_cons.mp hy
      have hxy : x = y := by
        rcases List.mem_cons.mp ((h x).mp (List.mem_cons_self ..)) with e | hxys
        · exact e
        · rcases List.mem_cons.mp ((h y).mpr (List.mem_cons_self ..)) with e | hyxs
          · exact e.symm
          · exact absurd (Ranked.lt_trans (hx₁ y hyxs) (hy₁ x hxys)) (Ranked.lt_irrefl _)
      subst hxy
      refine congrArg _ (ih hx₂ hy₂ fun z => ?_)
      have hz := h z
      simp only [List.mem_cons] at hz
      constructor
      · intro hm
        rcases hz.mp (.inr hm) with rfl | hm'
        · exact absurd (hx₁ z hm) (Ranked.lt_irrefl _)
        · exact hm'
      · intro hm
        rcases hz.mpr (.inr hm) with rfl | hm'
        · exact absurd (hy₁ z hm) (Ranked.lt_irrefl _)
        · exact hm'

/-! ## Looking up, removing and revising -/

variable [DecidableEq κ]

/-- The item under a key. -/
def get? (r : Register α) (k : κ) : Option α := r.items.find? fun x => key x = k

/-- Whether there is an item under a key. -/
def contains (r : Register α) (k : κ) : Bool := (r.get? k).isSome

/-- Removes the item under a key. -/
def erase (r : Register α) (k : κ) : Register α :=
  ⟨r.items.filter fun x => key x ≠ k, r.sorted.filter _⟩

/-- Revises the item under a key, if there is one, and files the result. -/
def modify (r : Register α) (k : κ) (f : α → α) : Register α :=
  match r.get? k with
  | some x => r.put (f x)
  | none => r

/-- The keys, in ascending order. -/
def keys (r : Register α) : List κ := r.items.map key

/-! ## Laws -/

/-- Looking up finds exactly the items, each under its own key. -/
theorem get?_eq_some_iff {r : Register α} {k : κ} {x : α} :
    r.get? k = some x ↔ x ∈ r.items ∧ key x = k := by
  constructor
  · intro h
    exact ⟨List.mem_of_find?_eq_some h, by simpa using List.find?_some h⟩
  · rintro ⟨hmem, rfl⟩
    cases hfind : r.get? (key x) with
    | none =>
      have := List.find?_eq_none.mp hfind x hmem
      simp at this
    | some y =>
      have hy : y ∈ r.items ∧ key y = key x :=
        ⟨List.mem_of_find?_eq_some hfind, by simpa using List.find?_some hfind⟩
      exact congrArg some (eq_of_key_eq r.sorted hy.1 hmem hy.2)

theorem get?_eq_none_iff {r : Register α} {k : κ} : r.get? k = none ↔ ∀ x ∈ r.items, key x ≠ k := by
  simp [get?, List.find?_eq_none]

@[simp] theorem get?_put_self (x : α) (r : Register α) : (r.put x).get? (key x) = some x :=
  get?_eq_some_iff.mpr ⟨(mem_file_iff r.sorted).mpr (.inl rfl), rfl⟩

theorem get?_put_of_ne {x : α} {r : Register α} {k : κ} (h : k ≠ key x) :
    (r.put x).get? k = r.get? k := by
  apply Option.ext
  intro y
  rw [get?_eq_some_iff, get?_eq_some_iff]
  change y ∈ file x r.items ∧ _ ↔ _
  rw [mem_file_iff r.sorted]
  grind

@[simp] theorem get?_erase_self (r : Register α) (k : κ) : (r.erase k).get? k = none := by
  simp [get?_eq_none_iff, erase]

theorem get?_erase_of_ne {r : Register α} {j k : κ} (h : k ≠ j) : (r.erase j).get? k = r.get? k := by
  apply Option.ext
  intro y
  simp only [get?_eq_some_iff, erase, List.mem_filter, decide_eq_true_eq]
  grind

/-- Registers that answer every look-up alike are equal. -/
theorem ext_get? {r s : Register α} (h : ∀ k, r.get? k = s.get? k) : r = s := by
  refine ext_items (eq_of_mem_iff r.sorted s.sorted fun z => ?_)
  have hz := h (key z)
  constructor
  · intro hm
    exact (get?_eq_some_iff.mp (hz ▸ get?_eq_some_iff.mpr ⟨hm, rfl⟩)).1
  · intro hm
    exact (get?_eq_some_iff.mp (hz.symm ▸ get?_eq_some_iff.mpr ⟨hm, rfl⟩)).1

end Register

end Lotbook
