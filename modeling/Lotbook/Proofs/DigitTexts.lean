/-
# Lotbook.Proofs.DigitTexts -- runs of digits and what they stand for

Digits continue a number to one that is not smaller (`Text.le_ofDigitChars`), and no number but zero begins
with a zero (`Text.eq_zero_of_head?_digits`). Digits that are padded to one more than a number of places are
those of the whole part and so many places (`Text.exists_places`).
-/
import Lotbook.Text.Digits
import Mathlib.Algebra.Group.Nat.Defs
import Mathlib.Data.List.Basic
import Mathlib.Data.Nat.Log

namespace Lotbook.Text

variable {cs : List Char}

/-- Whether there are only digits. -/
def AllDigits (cs : List Char) : Prop := ∀ c ∈ cs, c.isDigit = true

/-- The digits as numbers. -/
def values (cs : List Char) : List Nat := cs.filterMap digit?

namespace AllDigits

theorem values_eq_map (h : AllDigits cs) : values cs = cs.map fun c => c.toNat - '0'.toNat :=
  List.filterMap_eq_map_iff_forall_eq_some.mpr fun c hc => if_pos (h c hc)

theorem length_values (h : AllDigits cs) : (values cs).length = cs.length := by
  rw [h.values_eq_map, List.length_map]

theorem foldl_values (h : AllDigits cs) (start : Nat) :
    (values cs).foldl (fun n d => 10 * n + d) start = Nat.ofDigitChars 10 cs start := by
  rw [h.values_eq_map, List.foldl_map]
  rfl

end AllDigits

theorem le_ofDigitChars (start : Nat) (cs : List Char) : start ≤ Nat.ofDigitChars 10 cs start := by
  induction cs generalizing start with
  | nil => exact Nat.le_refl _
  | cons c cs ih =>
    have := ih (10 * start + (c.toNat - '0'.toNat))
    rw [Nat.ofDigitChars_cons]
    omega

/-! ## The digits of a number -/

theorem allDigits_digits (n : Nat) : AllDigits (digits n) := fun _ hc =>
  Nat.isDigit_of_mem_toDigits (by decide) (by decide) hc

theorem digits_ne_nil (n : Nat) : digits n ≠ [] := Nat.toDigits_ne_nil

theorem ofDigitChars_digits (n : Nat) : Nat.ofDigitChars 10 (digits n) 0 = n :=
  Nat.ofDigitChars_toDigits (by decide) (by decide)

theorem digits_of_lt {n : Nat} (h : n < 10) : digits n = [n.digitChar] := Nat.toDigits_of_lt_base h

theorem digits_of_ge {n : Nat} (h : 10 ≤ n) : digits n = digits (n / 10) ++ [(n % 10).digitChar] :=
  Nat.toDigits_of_base_le (by decide) h

/-- Only zero begins with a zero. -/
theorem eq_zero_of_head?_digits {n : Nat} (h : (values (digits n)).head? = some 0) : n = 0 := by
  rw [(allDigits_digits n).values_eq_map, List.head?_map] at h
  induction n using Nat.strongRecOn with
  | ind n ih =>
    rcases Nat.lt_or_ge n 10 with hlt | hge
    · have hvalue : n.digitChar.toNat - '0'.toNat = n := by
        rw [Nat.toNat_digitChar_of_lt_ten hlt]
        exact Nat.add_sub_cancel_left ..
      rw [digits_of_lt hlt] at h
      exact hvalue.symm.trans (Option.some.inj h)
    · rw [digits_of_ge hge, List.head?_append_of_ne_nil _ (digits_ne_nil _)] at h
      have := ih (n / 10) (by omega) h
      omega

/-- A number has one digit more than its logarithm. -/
theorem length_digits {n : Nat} (hn : 0 < n) : (digits n).length = Nat.log 10 n + 1 := by
  have hle {k : Nat} (hk : 0 < k) : (digits n).length ≤ k ↔ n < 10 ^ k :=
    Nat.length_toDigits_le_iff (by decide) hk
  refine le_antisymm ((hle (Nat.succ_pos _)).mpr (Nat.lt_pow_succ_log_self (by decide) n)) ?_
  rcases Nat.eq_zero_or_pos (Nat.log 10 n) with hzero | hpos
  · rw [hzero]
    exact Nat.length_toDigits_pos
  · refine not_lt.mp fun hlt => ?_
    exact absurd ((hle hpos).mp (Nat.lt_succ_iff.mp hlt)) (not_lt.mpr (Nat.pow_log_le_self 10 hn.ne'))

/-! ## Padding -/

theorem paddedDigits_succ (width n : Nat) :
    paddedDigits (width + 2) n = paddedDigits (width + 1) (n / 10) ++ [(n % 10).digitChar] := by
  unfold paddedDigits padLeft
  rcases Nat.lt_or_ge n 10 with hlt | hge
  · rw [digits_of_lt hlt, Nat.div_eq_of_lt hlt, Nat.mod_eq_of_lt hlt, digits_of_lt (by decide)]
    show List.replicate (width + 1) '0' ++ _ = List.replicate width '0' ++ ['0'] ++ _
    rw [List.replicate_succ']
  · rw [digits_of_ge hge, List.length_append, List.length_singleton, Nat.succ_sub_succ, List.append_assoc]

/-- Digits padded to one more than so many places are those of the whole part, and the places. -/
theorem exists_places (places n : Nat) : ∃ fraction, fraction.length = places ∧ AllDigits fraction ∧
    paddedDigits (places + 1) n = digits (n / 10 ^ places) ++ fraction := by
  induction places generalizing n with
  | zero =>
    have hpos : 0 < (digits n).length := List.length_pos_iff.mpr (digits_ne_nil n)
    refine ⟨[], rfl, fun _ hc => (List.not_mem_nil hc).elim, ?_⟩
    rw [Nat.pow_zero, Nat.div_one, List.append_nil, paddedDigits, padLeft,
      show 0 + 1 - (digits n).length = 0 by omega]
    rfl
  | succ places ih =>
    obtain ⟨fraction, hlength, hdigits, hsplit⟩ := ih (n / 10)
    refine ⟨fraction ++ [(n % 10).digitChar], by rw [List.length_append, hlength]; rfl, ?_, ?_⟩
    · intro c hc
      rcases List.mem_append.mp hc with hc | hc
      · exact hdigits c hc
      · rw [List.mem_singleton.mp hc, Nat.isDigit_digitChar]
        exact decide_eq_true (Nat.mod_lt n (by decide))
    · rw [paddedDigits_succ, hsplit, Nat.div_div_eq_div_mul, Nat.pow_succ', List.append_assoc]

/-- Zeros in front count for nothing. -/
theorem ofDigitChars_paddedDigits (width n : Nat) : Nat.ofDigitChars 10 (paddedDigits width n) 0 = n := by
  rw [paddedDigits, padLeft, Nat.ofDigitChars_append, Nat.ofDigitChars_replicate_zero, Nat.mul_zero,
    ofDigitChars_digits]

end Lotbook.Text
