/-
# Lotbook.Order -- one order for every kind of key

Identities, dates and composite keys are ordered by a list of integers that determines them: numbers
by themselves, dates by year, month and day, pairs by their parts in turn. Lists compare number by
number, so the order of any ranked type is strict, transitive and total (`lt_irrefl`, `lt_trans`,
`lt_or_eq_or_gt`).
-/

namespace Lotbook

/-- Whether a list of numbers comes before another: the first numbers in which they differ decide,
and a list comes before those that go on after it. -/
def precedes : List Int → List Int → Bool
  | _, [] => false
  | [], _ :: _ => true
  | a :: as, b :: bs => decide (a < b) || (decide (a = b) && precedes as bs)

theorem precedes_irrefl (as : List Int) : ¬ precedes as as := by
  induction as with
  | nil => simp [precedes]
  | cons a as ih => simpa [precedes] using ih

theorem precedes_trans {as bs cs : List Int} (hab : precedes as bs) (hbc : precedes bs cs) :
    precedes as cs := by
  induction as generalizing bs cs with
  | nil => cases bs <;> cases cs <;> simp_all [precedes]
  | cons a as ih =>
    cases bs with
    | nil => simp [precedes] at hab
    | cons b bs =>
      cases cs with
      | nil => simp [precedes] at hbc
      | cons c cs =>
        simp only [precedes, Bool.or_eq_true, Bool.and_eq_true, decide_eq_true_eq] at hab hbc ⊢
        rcases hab with hab | ⟨rfl, hab⟩ <;> rcases hbc with hbc | ⟨rfl, hbc⟩
        · exact .inl (by omega)
        · exact .inl hab
        · exact .inl hbc
        · exact .inr ⟨rfl, ih hab hbc⟩

theorem precedes_or_eq_or_precedes (as bs : List Int) :
    precedes as bs ∨ as = bs ∨ precedes bs as := by
  induction as generalizing bs with
  | nil => cases bs <;> simp [precedes]
  | cons a as ih =>
    cases bs with
    | nil => simp [precedes]
    | cons b bs =>
      simp only [precedes, Bool.or_eq_true, Bool.and_eq_true, decide_eq_true_eq]
      rcases Int.lt_trichotomy a b with h | rfl | h
      · exact .inl (.inl h)
      · rcases ih bs with h | rfl | h
        · exact .inl (.inr ⟨rfl, h⟩)
        · exact .inr (.inl rfl)
        · exact .inr (.inr (.inr ⟨rfl, h⟩))
      · exact .inr (.inr (.inl h))

/-- A type whose values are told apart, and ordered, by a list of integers. -/
class Ranked (κ : Type) where
  rank : κ → List Int
  rank_injective : Function.Injective rank

export Ranked (rank rank_injective)

namespace Ranked

variable {κ : Type} [Ranked κ]

instance (priority := low) : LT κ := ⟨fun a b => precedes (rank a) (rank b) = true⟩

instance (priority := low) : LE κ := ⟨fun a b => precedes (rank b) (rank a) = false⟩

instance (priority := low) (a b : κ) : Decidable (a < b) :=
  inferInstanceAs (Decidable (precedes (rank a) (rank b) = true))

instance (priority := low) (a b : κ) : Decidable (a ≤ b) :=
  inferInstanceAs (Decidable (precedes (rank b) (rank a) = false))

theorem lt_irrefl (a : κ) : ¬ a < a := precedes_irrefl (rank a)

theorem lt_trans {a b c : κ} (hab : a < b) (hbc : b < c) : a < c := precedes_trans hab hbc

theorem not_lt {a b : κ} : ¬ a < b ↔ b ≤ a := Bool.not_eq_true _ ▸ Iff.rfl

theorem lt_or_eq_or_gt (a b : κ) : a < b ∨ a = b ∨ b < a :=
  (precedes_or_eq_or_precedes (rank a) (rank b)).imp_right (.imp_left fun h => rank_injective h)

theorem ne_of_lt {a b : κ} (h : a < b) : a ≠ b := fun e => lt_irrefl b (e ▸ h)

end Ranked

end Lotbook
