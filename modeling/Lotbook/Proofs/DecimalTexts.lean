/-
# Lotbook.Proofs.DecimalTexts -- decimals that survive being written as doubles

A decimal is written as its nearest double. It survives if it has few digits (`Json.survives_decimal`), which
is to say that its last place counts more than the last bit of its nearest double, and that it is smaller than
10^15 (`Decimal.IsShort`). So few are any fifteen digits (`Decimal.isShort_ofMantissa`), and sixteen places below
one half (`Decimal.isShort_of_lt_half`). The shortest digits of its nearest double are those of the decimal then,
when it is written and when it is read, where ties between equally near digits are broken in different ways
(`Decimal.IsShort.exists_magnitude`).
-/
import Lotbook.Proofs.Literals
import Lotbook.Split.History

namespace Lotbook

/-! ## Decimals with wide last places -/

namespace Decimal

variable {d : Decimal}

/-- Whether a decimal has no more digits than a double keeps: its last place counts more than the last bit of
its nearest double. It is also smaller than 10^15, since a zero is written behind the point that counts as a
digit when it is read. -/
structure IsShort (d : Decimal) : Prop where
  lastPlace : ∃ places, d.OnGrid places ∧
    (2 : ℚ) ^ Binary64.lastBit (d.units.natAbs / unit) < 1 / 10 ^ places
  small : d.units.natAbs < tenTo 15 * unit

theorem natAbs_div_unit_eq {m places : Nat} (hplaces : places ≤ maxPlaces)
    (hunits : d.units.natAbs = m * tenTo (maxPlaces - places)) :
    (d.units.natAbs : ℚ) / unit = m / 10 ^ places := by
  have hsplit : unit = tenTo places * tenTo (maxPlaces - places) := by
    rw [unit, ← tenTo_add, Nat.add_sub_cancel' hplaces]
  have hstep : (0 : ℚ) < tenTo (maxPlaces - places) := by exact_mod_cast tenTo_pos _
  rw [hunits, hsplit, Nat.cast_mul, Nat.cast_mul, mul_div_mul_right _ _ hstep.ne', cast_tenTo]

/-- The smallest unit is far above the smallest magnitudes. -/
theorem le_natAbs_div_unit (hne : d ≠ 0) : (2 : ℚ) ^ (-1000 : Int) ≤ d.units.natAbs / unit := by
  have hunits : (1 : ℚ) ≤ d.units.natAbs := by
    have hne : d.units ≠ 0 := fun hzero => hne (eq_zero_iff.mpr hzero)
    exact_mod_cast Int.natAbs_pos.mpr hne
  refine (zpow_le_zpow_right₀ one_le_two (show (-1000 : Int) ≤ (-100 : Int) by decide)).trans ?_
  rw [le_div_iff₀ (by exact_mod_cast unit_pos), zpow_neg, inv_mul_le_iff₀ (by positivity)]
  refine le_trans ?_ (le_mul_of_one_le_right (by positivity) hunits)
  norm_num [unit_eq]

/-- Digits that without the point make less than 2^52, as any fifteen do, are few enough. -/
theorem isShort_ofMantissa {m : Int} {places : Nat} (fits : m.natAbs ≤ maxMantissa) (hne : m ≠ 0)
    (hm : m.natAbs < twoTo 52) (hplaces : places ≤ maxPlaces) (hsmall : m.natAbs < tenTo (15 + places)) :
    (ofMantissa m places fits).IsShort := by
  set d := ofMantissa m places fits
  have hsigned : d.units = m * tenTo (maxPlaces - places) := rfl
  have hunits : d.units.natAbs = m.natAbs * tenTo (maxPlaces - places) := Int.natAbs_mul m _
  refine ⟨⟨places, Dvd.intro_left m hsigned.symm, ?_⟩, ?_⟩
  · have hzero : d ≠ 0 := fun hzero => by
      rw [eq_zero_iff, hsigned, mul_eq_zero] at hzero
      exact hzero.elim hne (by exact_mod_cast (tenTo_pos _).ne')
    have hplace : (0 : ℚ) < 1 / 10 ^ places := by positivity
    have hbits : (m.natAbs : ℚ) < 2 ^ 52 := by exact_mod_cast hm
    have hlast := (Binary64.pow_lastBit_le (le_natAbs_div_unit hzero)).2
    refine lt_of_mul_lt_mul_left (hlast.trans_lt ?_) (by positivity)
    rw [natAbs_div_unit_eq hplaces hunits, div_eq_mul_one_div]
    exact mul_lt_mul_of_pos_right hbits hplace
  · have hsplit : tenTo 15 * unit = tenTo (15 + places) * tenTo (maxPlaces - places) := by
      rw [unit, ← tenTo_add, ← tenTo_add, Nat.add_assoc, Nat.add_sub_cancel' hplaces]
    rw [hunits, hsplit]
    exact Nat.mul_lt_mul_of_pos_right hsmall (tenTo_pos _)

/-- Sixteen places are few enough below one half. -/
theorem isShort_of_lt_half (hgrid : d.OnGrid SplitHistory.adjustedPlaces) (hne : d ≠ 0)
    (hhalf : 2 * d.units.natAbs < unit) : d.IsShort := by
  have hunit : (0 : ℚ) < unit := by exact_mod_cast unit_pos
  have hlow := le_natAbs_div_unit hne
  have hlog : Int.log 2 ((d.units.natAbs : ℚ) / unit) < -1 := by
    refine (Int.lt_zpow_iff_log_lt (by decide) (lt_of_lt_of_le (by positivity) hlow)).mp ?_
    rw [div_lt_iff₀ hunit, Nat.cast_ofNat, zpow_neg_one, lt_inv_mul_iff₀ two_pos]
    exact_mod_cast hhalf
  have hlast := (Binary64.pow_lastBit_le hlow).1
  refine ⟨⟨SplitHistory.adjustedPlaces, hgrid, ?_⟩, ?_⟩
  · refine (zpow_le_zpow_right₀ one_le_two (show _ ≤ (-54 : Int) by omega)).trans_lt ?_
    norm_num [SplitHistory.adjustedPlaces]
  · have : unit ≤ tenTo 15 * unit := Nat.le_mul_of_pos_left unit (tenTo_pos 15)
    omega

/-- Where there are at most sixteen places, the last of them is one that counts. -/
theorem IsShort.exists_places (h : d.IsShort) (hgrid : d.OnGrid SplitHistory.adjustedPlaces) :
    ∃ m places : Nat, places ≤ SplitHistory.adjustedPlaces ∧ (d.units.natAbs : ℚ) / unit = m / 10 ^ places ∧
      (2 : ℚ) ^ Binary64.lastBit (m / 10 ^ places) < 1 / 10 ^ places := by
  obtain ⟨places, hle, hplaces, hbit⟩ : ∃ places ≤ SplitHistory.adjustedPlaces, d.OnGrid places ∧
      (2 : ℚ) ^ Binary64.lastBit (d.units.natAbs / unit) < 1 / 10 ^ places := by
    obtain ⟨places, hplaces, hbit⟩ := h.lastPlace
    rcases Nat.le_total places SplitHistory.adjustedPlaces with hfew | hmany
    · exact ⟨places, hfew, hplaces, hbit⟩
    · refine ⟨_, le_rfl, hgrid, hbit.trans_le ?_⟩
      exact one_div_le_one_div_of_le (by positivity) (pow_le_pow_right₀ (by norm_num) hmany)
  obtain ⟨m, hm⟩ := Int.natCast_dvd.mp hplaces
  have hvalue := natAbs_div_unit_eq (hle.trans (by decide)) (hm.trans (Nat.mul_comm _ _))
  exact ⟨m, places, hle, hvalue, hvalue ▸ hbit⟩

theorem IsShort.natAbs_div_unit_lt (h : d.IsShort) : (d.units.natAbs : ℚ) / unit < 10 ^ 15 := by
  have hunit : (0 : ℚ) < unit := by exact_mod_cast unit_pos
  rw [div_lt_iff₀ hunit, ← cast_tenTo]
  exact_mod_cast h.small

/-- The magnitude of a decimal of few digits has the digits of the decimal as its shortest ones. -/
theorem IsShort.exists_magnitude (h : d.IsShort) (hgrid : d.OnGrid SplitHistory.adjustedPlaces)
    (hne : d ≠ 0) : ∃ x, Binary64.ofRat? (d.units.natAbs / unit) = some x ∧ ∀ tie,
      (x.shortest tie).toRat = d.units.natAbs / unit ∧ (x.shortest tie).IsExact := by
  obtain ⟨m, places, hplaces, hvalue, hbit⟩ := h.exists_places hgrid
  have hlow := le_natAbs_div_unit hne
  have hreach : (10 : ℚ) ^ 15 < 2 ^ (900 : Int) :=
    lt_of_lt_of_le (show (10 : ℚ) ^ 15 < 2 ^ (100 : Int) by norm_num)
      (zpow_le_zpow_right₀ one_le_two (by decide))
  obtain ⟨x, hx, hrounds⟩ := Binary64.exists_ofRat?_rounds hlow (h.natAbs_div_unit_lt.trans hreach)
  rw [hvalue] at hrounds hlow
  have hm : (0 : ℚ) < m :=
    (div_pos_iff_of_pos_right (by positivity)).mp (lt_of_lt_of_le (by positivity) hlow)
  refine ⟨x, hx, fun tie => ?_⟩
  rw [hvalue]
  exact Binary64.shortest_of_lastBit_lt hrounds (by exact_mod_cast hm.ne') hplaces hbit tie

end Decimal

namespace Json

variable {d : Decimal}

/-- A literal for the magnitude of a decimal of few digits is read as the decimal. -/
theorem decimal?_eq_some (h : d.IsShort) {lit : NumberLiteral} {x : Binary64} (hinteger : lit.integer? = none)
    (hmagnitude : lit.magnitude? = some x) (hnegative : lit.negative = decide (d.units < 0))
    (hvalue : (x.shortest .up).toRat = d.units.natAbs / Decimal.unit) (hexact : (x.shortest .up).IsExact) :
    lit.decimal? = some d := by
  have hplaces : -Decimal.maxPlaces ≤ (x.shortest .up).power := by
    have hpower := hexact.power_ge
    simp only [Binary64.exactPowerOfTen, Decimal.maxPlaces] at *
    omega
  have hsmall : d.units.natAbs ≤ Decimal.maxMantissa * Decimal.unit :=
    h.small.le.trans (Nat.mul_le_mul_right _ (by decide))
  obtain ⟨n, hn, hpositive, hunits⟩ :=
    Binary64.Scientific.exists_scan hvalue hplaces (hexact.bits.le.trans (by decide)) hsmall
  obtain ⟨c, cs, hcons, hc⟩ := (x.shortest .up).exists_plain_cons false
  unfold NumberLiteral.decimal?
  rw [hinteger, hmagnitude]
  dsimp only
  rw [Option.bind_some, hnegative]
  rcases Int.lt_or_le d.units 0 with hlt | hge
  · rw [decide_eq_true hlt, if_pos rfl, Numeral.ofPlainChars?, hn]
    refine congrArg some (Decimal.ext_units ?_)
    rw [Numeral.withMinus_units hpositive, hunits]
    omega
  · rw [decide_eq_false (by omega), if_neg (by decide), hcons, Numeral.ofPlainChars?_of_isDigit hc, ← hcons, hn]
    refine congrArg some (Decimal.ext_units ?_)
    rw [hunits]
    omega

theorem decimalChars_eq {x : Binary64} (h : Binary64.ofRat? (d.units.natAbs / Decimal.unit) = some x) :
    decimalChars d =
      let s := x.shortest .toEven
      let unsigned :=
        if plainFrom ≤ s.leading ∧ s.leading < exponentialFrom then s.plain true else s.exponential
      if decide (d.units < 0) = true then '-' :: unsigned else unsigned := by
  unfold decimalChars
  rw [Binary64.nearest?_eq_ofRat? _ Decimal.unit_pos, h]
  simp only [decide_eq_true_eq]

/-- A decimal of few digits is read back from the shortest digits of its nearest double. -/
theorem survives_decimal (h : d.IsShort) (hgrid : d.OnGrid SplitHistory.adjustedPlaces) : Survives d := by
  by_cases hzero : d = 0
  · subst hzero
    refine survives_of_number? false ['0', '.', '0'] (by decide +kernel) ?_
    exact fun rest hrest => ⟨_, number?_fraction 0 (by simp [Text.AllDigits]) (List.cons_ne_nil '0' []) hrest,
      by decide +kernel⟩
  · obtain ⟨x, hx, hshortest⟩ := h.exists_magnitude hgrid hzero
    obtain ⟨hvalue, hexact⟩ := hshortest .toEven
    obtain ⟨hvalue', hexact'⟩ := hshortest .up
    have hpos : (x.shortest .toEven).significand ≠ 0 := by
      intro hnone
      rw [Binary64.Scientific.toRat, hnone, Nat.cast_zero, zero_mul] at hvalue
      exact (lt_of_lt_of_le (by positivity) (Decimal.le_natAbs_div_unit hzero)).ne hvalue
    refine survives_of_number? _ _ (decimalChars_eq hx) fun rest hrest => ?_
    obtain ⟨lit, hlit, hnegative, hinteger, hmagnitude⟩ :=
      readsAs_written hexact hpos (hvalue ▸ h.natAbs_div_unit_lt) (decide (d.units < 0)) rest hrest
    rw [hvalue, hx] at hmagnitude
    exact ⟨lit, hlit, decimal?_eq_some h hinteger hmagnitude hnegative hvalue' hexact'⟩

end Json

end Lotbook
