/-
# Lotbook.Proofs.Keys -- sorting by keys

Keys are lists of numbers, and they are compared number by number. Sorting by them is what sorting comes to
in any way that keeps the elements with equal keys in their order (`mergeSort_keys`), and it leaves no
element behind one with a greater key (`pairwise_mergeSort_keys`).
-/
import Lotbook.Order
import Mathlib.Data.List.Sort

namespace Lotbook

/-! ## Lists of numbers in order -/

theorem precedes_cons {a b : Int} {as bs : List Int} :
    precedes (a :: as) (b :: bs) ↔ a < b ∨ a = b ∧ precedes as bs := by
  simp only [precedes, Bool.or_eq_true, Bool.and_eq_true, decide_eq_true_eq]

theorem precedes_cons_self {a : Int} {as bs : List Int} :
    precedes (a :: as) (a :: bs) ↔ precedes as bs := by
  simp [precedes_cons]

theorem precedes_append {as bs : List Int} (h : as.length = bs.length) (cs ds : List Int) :
    precedes (as ++ cs) (bs ++ ds) ↔ precedes as bs ∨ as = bs ∧ precedes cs ds := by
  induction as generalizing bs with
  | nil =>
    obtain rfl := List.eq_nil_of_length_eq_zero h.symm
    simp [precedes]
  | cons a as ih =>
    cases bs with
    | nil => cases h
    | cons b bs =>
      rw [List.cons_append, List.cons_append, precedes_cons, precedes_cons, ih (Nat.succ.inj h),
        List.cons.injEq]
      tauto

/-- Lists of one length are ordered the other way around by their numbers negated. -/
theorem precedes_map_neg {as bs : List Int} (h : as.length = bs.length) :
    precedes (as.map (-·)) (bs.map (-·)) ↔ precedes bs as := by
  induction as generalizing bs with
  | nil =>
    obtain rfl := List.eq_nil_of_length_eq_zero h.symm
    rfl
  | cons a as ih =>
    cases bs with
    | nil => cases h
    | cons b bs =>
      rw [List.map_cons, List.map_cons, precedes_cons, precedes_cons, ih (Nat.succ.inj h),
        Int.neg_lt_neg_iff, Int.neg_inj, eq_comm]

/-! ## Sorting by keys -/

section Sorting

variable {α : Type} (k : α → List Int)

theorem keys_trans (a b c : α) (hab : (!precedes (k b) (k a)) = true)
    (hbc : (!precedes (k c) (k b)) = true) : (!precedes (k c) (k a)) = true := by
  rw [Bool.not_eq_true', Bool.eq_false_iff] at hab hbc ⊢
  intro hca
  rcases precedes_or_eq_or_precedes (k a) (k b) with h | h | h
  · exact hbc (precedes_trans hca h)
  · rw [h] at hca
    exact hbc hca
  · exact hab h

theorem keys_total (a b : α) : (!precedes (k b) (k a) || !precedes (k a) (k b)) = true := by
  rw [Bool.or_eq_true, Bool.not_eq_true', Bool.not_eq_true', Bool.eq_false_iff, Bool.eq_false_iff]
  by_contra hboth
  obtain ⟨hba, hab⟩ := not_or.mp hboth
  exact precedes_irrefl _ (precedes_trans (not_not.mp hba) (not_not.mp hab))

/-- In a list that is sorted by keys, no element has a key that precedes that of one before it. -/
theorem pairwise_mergeSort_keys (xs : List α) :
    (xs.mergeSort fun a b => !precedes (k b) (k a)).Pairwise fun a b => ¬ precedes (k b) (k a) := by
  apply (List.pairwise_mergeSort (keys_trans k) (keys_total k) xs).imp
  intro a b hle
  rwa [Bool.not_eq_true', Bool.eq_false_iff] at hle

theorem orderedInsert_append (r : α → α → Prop) [DecidableRel r] {a : α} {front back : List α}
    (hfront : ∀ b ∈ front, ¬ r a b) (hback : ∀ b ∈ back, r a b) :
    (front ++ back).orderedInsert r a = front ++ a :: back := by
  induction front with
  | nil =>
    cases back with
    | nil => rfl
    | cons b back => exact if_pos (hback b List.mem_cons_self)
  | cons b front ih =>
    obtain ⟨hb, hfront⟩ := List.forall_mem_cons.mp hfront
    rw [List.cons_append, List.orderedInsert, if_neg hb, ih hfront, List.cons_append]

/-- Sorting by keys may be done by insertion, which can be followed step by step. -/
theorem mergeSort_keys (xs : List α) :
    (xs.mergeSort fun a b => !precedes (k b) (k a)) =
      xs.insertionSort fun a b => !precedes (k b) (k a) := by
  induction xs with
  | nil => exact List.mergeSort_nil
  | cons a xs ih =>
    obtain ⟨front, back, hcons, hrest, hfront⟩ :=
      List.mergeSort_cons (keys_trans k) (keys_total k) a xs
    have hsorted := List.pairwise_mergeSort (keys_trans k) (keys_total k) (a :: xs)
    rw [hcons] at hsorted
    obtain ⟨-, hback, -⟩ := List.pairwise_append.mp hsorted
    rw [hcons, List.insertionSort_cons, ← ih, hrest]
    symm
    apply orderedInsert_append
    · intro b hb hle
      have hfails := hfront b hb
      rw [hle] at hfails
      cases hfails
    · exact fun b hb => List.rel_of_pairwise_cons hback hb

end Sorting

end Lotbook
