/-
# Lotbook.Proofs.PlainNotation -- plain notation and what is read from it

In plain notation, the places stand behind the point and all digits together are those of the significand
(`Binary64.Scientific.plain_of_neg`), or there are no places (`Binary64.Scientific.plain_of_nonneg`). Digits
that fit are written after a numeral one by one (`Numeral.scan_append`), so that a number in plain notation is
read as a numeral of as many units (`Binary64.Scientific.exists_scan`).
-/
import Lotbook.Decimal.Numeral
import Lotbook.Proofs.ShortestDigits

namespace Lotbook

open Text (AllDigits digits)

/-! ## Numerals -/

namespace Numeral

/-- What a numeral becomes when digits are written after it. -/
structure Continues (n : Numeral) (afterPoint : Bool) (cs : List Char) (next : Numeral) : Prop where
  negative : next.negative = n.negative
  mantissa : next.mantissa = Nat.ofDigitChars 10 cs n.mantissa
  places : next.places = if afterPoint then n.places + cs.length else n.places

variable {n : Numeral} {afterPoint : Bool} {cs : List Char}

/-- A digit that fits is written after a numeral, which has no places in front of the point. -/
theorem scan_cons {c : Char} (h : c.isDigit = true) (anyDigit : Bool) (rest : List Char)
    (hfits : Nat.ofDigitChars 10 [c] n.mantissa ≤ Decimal.maxMantissa)
    (hbefore : afterPoint = false → n.places = 0)
    (hafter : afterPoint = true → n.places < Decimal.maxPlaces) :
    ∃ next, n.Continues afterPoint [c] next ∧
      n.scan afterPoint anyDigit (c :: rest) = next.scan afterPoint true rest := by
  have hroom : ¬ (afterPoint = true ∧ n.places = Decimal.maxPlaces) :=
    fun hfull => absurd hfull.2 (hafter hfull.1).ne
  have hdigit : Text.digit? c = some (c.toNat - '0'.toNat) := if_pos h
  have hplaces : (if afterPoint then n.places + 1 else 0) ≤ Decimal.maxPlaces := by
    split
    · exact hafter ‹_›
    · exact Nat.zero_le _
  have happend : n.append? afterPoint (c.toNat - '0'.toNat) =
      some ⟨n.negative, Nat.ofDigitChars 10 [c] n.mantissa, _, hfits, hplaces⟩ := dif_pos ⟨hfits, hplaces⟩
  refine ⟨⟨n.negative, _, _, hfits, hplaces⟩, ⟨rfl, rfl, ?_⟩, ?_⟩
  · cases afterPoint with
    | true => rfl
    | false => exact (hbefore rfl).symm
  · rw [scan, if_neg hroom, hdigit]
    dsimp only
    rw [happend]

/-- Digits that fit are written after a numeral one by one, as places if they stand behind the point. -/
theorem scan_append (h : AllDigits cs) (hne : cs ≠ []) (anyDigit : Bool) (rest : List Char)
    (hfits : Nat.ofDigitChars 10 cs n.mantissa ≤ Decimal.maxMantissa)
    (hbefore : afterPoint = false → n.places = 0)
    (hafter : afterPoint = true → n.places + cs.length ≤ Decimal.maxPlaces) :
    ∃ next, n.Continues afterPoint cs next ∧
      n.scan afterPoint anyDigit (cs ++ rest) = next.scan afterPoint true rest := by
  induction cs generalizing n anyDigit with
  | nil => exact absurd rfl hne
  | cons c cs ih =>
    obtain ⟨one, hone, hscan⟩ := scan_cons (h c List.mem_cons_self) anyDigit (cs ++ rest)
      ((Text.le_ofDigitChars _ cs).trans hfits) hbefore fun hpoint =>
        lt_of_lt_of_le (Nat.lt_add_of_pos_right (Nat.succ_pos _)) (hafter hpoint)
    by_cases hlast : cs = []
    · subst hlast
      exact ⟨one, hone, hscan⟩
    · obtain ⟨next, hnext, hscan'⟩ := ih (fun c hc => h c (List.mem_cons_of_mem _ hc)) hlast true
        (by rw [hone.mantissa]; exact hfits)
        (fun hpoint => by rw [hone.places, hpoint]; exact hbefore hpoint)
        (fun hpoint => by
          have := hafter hpoint
          rw [List.length_cons] at this
          rw [hone.places, if_pos hpoint, List.length_singleton]
          omega)
      refine ⟨next, ⟨hnext.negative.trans hone.negative, ?_, ?_⟩, hscan.trans hscan'⟩
      · rw [hnext.mantissa, hone.mantissa]
        rfl
      · rw [hnext.places, hone.places]
        split
        · rw [List.length_singleton, List.length_cons]
          omega
        · rfl

theorem value_units (h : n.negative = false) :
    n.value.units = n.mantissa * tenTo (Decimal.maxPlaces - n.places) := by
  show n.signed * _ = _
  rw [signed, h]
  rfl

theorem withMinus_units (h : n.negative = false) : n.withMinus.value.units = -n.value.units := by
  rw [value_units h]
  show (if (n.mantissa != 0) = true then -(n.mantissa : Int) else n.mantissa) *
    (tenTo (Decimal.maxPlaces - n.places) : Int) = _
  by_cases hzero : n.mantissa = 0
  · simp [hzero]
  · rw [if_pos (by simpa using hzero), Int.neg_mul]

theorem ofPlainChars?_of_isDigit {c : Char} (h : c.isDigit = true) (cs : List Char) :
    ofPlainChars? (c :: cs) = zero.scan false false (c :: cs) := by
  unfold ofPlainChars?
  split
  · rename_i heq
    cases heq
    cases h
  · rename_i heq
    cases heq
    cases h
  · rfl

end Numeral

/-! ## Plain notation -/

namespace Binary64.Scientific

variable {s : Scientific}

/-- With places, the digits in front of the point and those behind it together are those of the
significand. -/
theorem plain_of_neg (h : s.power < 0) : ∃ whole fraction, fraction.length = (-s.power).toNat ∧
    AllDigits fraction ∧ Nat.ofDigitChars 10 (digits whole ++ fraction) 0 = s.significand ∧
    ∀ point, s.plain point = digits whole ++ '.' :: fraction := by
  set places := (-s.power).toNat with hplaces
  obtain ⟨fraction, hlength, hdigits, hsplit⟩ := Text.exists_places places s.significand
  refine ⟨s.significand / 10 ^ places, fraction, hlength, hdigits, ?_, fun point => ?_⟩
  · rw [← hsplit, Text.ofDigitChars_paddedDigits]
  · have hcut : (Text.paddedDigits (places + 1) s.significand).length - places =
        (digits (s.significand / 10 ^ places)).length := by
      rw [hsplit, List.length_append, hlength, Nat.add_sub_cancel]
    unfold plain
    rw [if_neg (by omega)]
    dsimp only
    rw [← hplaces, hcut, hsplit, List.take_left, List.drop_left]

/-- Without places, there are the digits of the significand with zeros behind them. -/
theorem plain_of_nonneg (h : 0 ≤ s.power) (point : Bool) :
    s.plain point = digits (s.significand * tenTo s.power.toNat) ++ (if point then ['.', '0'] else []) :=
  if_pos h

theorem exists_plain_cons (s : Scientific) (point : Bool) :
    ∃ c cs, s.plain point = c :: cs ∧ c.isDigit = true := by
  have hcons (n : Nat) (behind : List Char) :
      ∃ c cs, digits n ++ behind = c :: cs ∧ c.isDigit = true := by
    obtain ⟨c, cs, hcons⟩ := List.exists_cons_of_ne_nil (Text.digits_ne_nil n)
    exact ⟨c, cs ++ behind, by rw [hcons]; rfl, Text.allDigits_digits n c (hcons ▸ List.mem_cons_self)⟩
  rcases Int.lt_or_le s.power 0 with hneg | hnonneg
  · obtain ⟨whole, fraction, -, -, -, hplain⟩ := plain_of_neg hneg
    rw [hplain]
    exact hcons whole _
  · rw [plain_of_nonneg hnonneg]
    exact hcons _ _

theorem exists_scan_of_neg (h : s.power < 0) (hplaces : -Decimal.maxPlaces ≤ s.power)
    (hfits : s.significand ≤ Decimal.maxMantissa) :
    ∃ n : Numeral, Numeral.zero.scan false false (s.plain false) = some n ∧ n.negative = false ∧
      n.mantissa = s.significand ∧ n.places = (-s.power).toNat := by
  obtain ⟨whole, fraction, hlength, hdigits, hall, hplain⟩ := plain_of_neg h
  have hne : fraction ≠ [] := by
    rintro rfl
    rw [List.length_nil] at hlength
    omega
  rw [Nat.ofDigitChars_append] at hall
  have hwhole : Nat.ofDigitChars 10 (digits whole) 0 ≤ s.significand := by
    rw [← hall]
    exact Text.le_ofDigitChars ..
  obtain ⟨n, hn, hscan⟩ := @Numeral.scan_append .zero false _ (Text.allDigits_digits whole)
    (Text.digits_ne_nil whole) false ('.' :: fraction) (hwhole.trans hfits) (fun _ => rfl) nofun
  have hmantissa : n.mantissa = Nat.ofDigitChars 10 (digits whole) 0 := hn.mantissa
  have hnone : n.places = 0 := hn.places
  obtain ⟨n', hn', hscan'⟩ := @Numeral.scan_append n true _ hdigits hne true []
    (by rw [hmantissa, hall]; exact hfits) nofun fun _ => by rw [hnone, hlength]; omega
  rw [List.append_nil] at hscan'
  refine ⟨n', ?_, hn'.negative.trans hn.negative, ?_, ?_⟩
  · rw [hplain, hscan]
    show n.scan true true fraction = some n'
    rw [hscan']
    rfl
  · rw [hn'.mantissa, hmantissa, hall]
  · rw [hn'.places, if_pos rfl, hnone, hlength, Nat.zero_add]

theorem exists_scan_of_nonneg (h : 0 ≤ s.power)
    (hfits : s.significand * tenTo s.power.toNat ≤ Decimal.maxMantissa) :
    ∃ n : Numeral, Numeral.zero.scan false false (s.plain false) = some n ∧ n.negative = false ∧
      n.mantissa = s.significand * tenTo s.power.toNat ∧ n.places = 0 := by
  set whole := s.significand * tenTo s.power.toNat
  have hall := Text.ofDigitChars_digits whole
  obtain ⟨n, hn, hscan⟩ := @Numeral.scan_append .zero false _ (Text.allDigits_digits whole)
    (Text.digits_ne_nil whole) false [] (hall.le.trans hfits) (fun _ => rfl) nofun
  refine ⟨n, ?_, hn.negative, hn.mantissa.trans hall, hn.places⟩
  rw [plain_of_nonneg h, if_neg (by decide), hscan]
  rfl

/-- How many smallest units a number in scientific notation has. -/
theorem units_of_toRat {units : Nat} (hvalue : s.toRat = units / Decimal.unit)
    (hplaces : -Decimal.maxPlaces ≤ s.power) :
    units = s.significand * tenTo (Decimal.maxPlaces + s.power).toNat := by
  have hunit : (Decimal.unit : ℚ) = 10 ^ (Decimal.maxPlaces : Int) := by
    rw [Decimal.unit, cast_tenTo, zpow_natCast]
  rw [eq_div_iff (by rw [hunit]; positivity), toRat, hunit, mul_assoc, ← zpow_add₀ (by norm_num),
    ← Int.toNat_of_nonneg (show 0 ≤ s.power + Decimal.maxPlaces by omega), zpow_natCast,
    Int.add_comm] at hvalue
  rw [← Nat.cast_inj (R := ℚ), Nat.cast_mul, cast_tenTo]
  exact hvalue.symm

/-- A number in plain notation is read as a numeral of as many units. -/
theorem exists_scan {units : Nat} (hvalue : s.toRat = units / Decimal.unit)
    (hplaces : -Decimal.maxPlaces ≤ s.power) (hfits : s.significand ≤ Decimal.maxMantissa)
    (hsmall : units ≤ Decimal.maxMantissa * Decimal.unit) :
    ∃ n : Numeral, Numeral.zero.scan false false (s.plain false) = some n ∧ n.negative = false ∧
      n.value.units = units := by
  have hunits := units_of_toRat hvalue hplaces
  rcases Int.lt_or_le s.power 0 with hneg | hnonneg
  · obtain ⟨n, hscan, hnegative, hmantissa, hn⟩ := exists_scan_of_neg hneg hplaces hfits
    refine ⟨n, hscan, hnegative, ?_⟩
    rw [Numeral.value_units hnegative, hmantissa, hn, hunits,
      show Decimal.maxPlaces - (-s.power).toNat = (Decimal.maxPlaces + s.power).toNat by omega]
    push_cast
    rfl
  · have hwhole : units = s.significand * tenTo s.power.toNat * Decimal.unit := by
      rw [hunits, Int.toNat_add (by omega) hnonneg, Int.toNat_natCast, tenTo_add, Nat.mul_comm (tenTo _),
        ← Nat.mul_assoc]
      rfl
    obtain ⟨n, hscan, hnegative, hmantissa, hn⟩ := exists_scan_of_nonneg hnonneg
      (Nat.le_of_mul_le_mul_right (hwhole.ge.trans hsmall) Decimal.unit_pos)
    refine ⟨n, hscan, hnegative, ?_⟩
    rw [Numeral.value_units hnegative, hmantissa, hn, hwhole]
    push_cast
    rfl

end Binary64.Scientific

end Lotbook
