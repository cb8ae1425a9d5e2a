/-
# Lotbook.Proofs.Literals -- numbers in a text are read as literals

Digits with a point, with an exponent or with neither are read as a literal in its parts, wherever the number
ends (`Json.number?_whole`, `Json.number?_fraction`, `Json.number?_exponential`). Whatever the notation, the
literal of a number of few digits stands for the magnitude that the number is rounded to
(`Json.readsAs_written`): the digits together are the significand, which has few bits, and so has the power of
ten that it is divided by. A value that is written as a number survives if the literal is read as the value
(`Json.survives_of_number?`), as whole numbers are (`Json.survives_int`).
-/
import Lotbook.Json.Form
import Lotbook.Proofs.PlainNotation

namespace Lotbook.Json

open Text (AllDigits values digits)
open Binary64 (Scientific)

variable {cs whole fraction rest : List Char} {negative : Bool}

/-! ## Runs of digits -/

/-- Whether a text goes on in a way that ends a run of digits in front of it. -/
def EndsDigits (rest : List Char) : Prop := ∀ c ∈ rest.head?, c.isDigit = false

/-- Whether a text goes on in a way that ends a number in front of it, as between the members of an object. -/
def EndsNumber (rest : List Char) : Prop := ∀ c ∈ rest.head?, c = ',' ∨ c = '\x7d'

theorem endsDigits_cons {c : Char} (h : c.isDigit = false) (cs : List Char) : EndsDigits (c :: cs) := by
  rintro c ⟨⟩
  exact h

theorem EndsNumber.endsDigits (h : EndsNumber rest) : EndsDigits rest := by
  intro c hc
  rcases h c hc with rfl | rfl <;> rfl

theorem spanDigits_append (h : AllDigits cs) (hrest : EndsDigits rest) :
    Text.spanDigits (cs ++ rest) = (cs, rest) := by
  unfold Text.spanDigits
  rw [List.takeWhile_append_of_pos h, List.dropWhile_append_of_pos h]
  cases rest with
  | nil => simp
  | cons c rest => simp [hrest c rfl]

theorem digitRun?_append (h : AllDigits cs) (hne : cs ≠ []) (hrest : EndsDigits rest) :
    digitRun? (cs ++ rest) = some (values cs, rest) := by
  unfold digitRun?
  rw [spanDigits_append h hrest]
  cases cs with
  | nil => exact absurd rfl hne
  | cons c cs => rfl

theorem takeDigits_values (h : AllDigits cs) {start : Nat}
    (hfits : Nat.ofDigitChars 10 cs start ≤ NumberLiteral.maxUnsigned) :
    NumberLiteral.takeDigits start (values cs) = (Nat.ofDigitChars 10 cs start, []) := by
  rw [h.values_eq_map]
  clear h
  induction cs generalizing start with
  | nil => rfl
  | cons c cs ih =>
    rw [Nat.ofDigitChars_cons] at hfits ⊢
    rw [List.map_cons, NumberLiteral.takeDigits, if_pos ((Text.le_ofDigitChars _ cs).trans hfits)]
    exact ih hfits

/-! ## Literals -/

theorem fraction?_of_ends (hrest : EndsNumber rest) : fraction? rest = some ([], rest) := by
  cases rest with
  | nil => rfl
  | cons c cs => rcases hrest c rfl with rfl | rfl <;> rfl

theorem exponent?_of_ends (hrest : EndsNumber rest) : exponent? rest = some (none, rest) := by
  cases rest with
  | nil => rfl
  | cons c cs => rcases hrest c rfl with rfl | rfl <;> rfl

theorem exponent?_minus (n : Nat) (hrest : EndsNumber rest) :
    exponent? ('e' :: '-' :: (digits n ++ rest)) = some (some (-(n : Int)), rest) := by
  have hvalue : ofDigits (values (digits n)) = n :=
    ((Text.allDigits_digits n).foldl_values 0).trans (Text.ofDigitChars_digits n)
  have hrun := digitRun?_append (Text.allDigits_digits n) (Text.digits_ne_nil n) hrest.endsDigits
  show (digitRun? (digits n ++ rest)).map _ = _
  rw [hrun, Option.map_some]
  show some (some (-1 * (ofDigits (values (digits n)) : Int)), rest) = _
  rw [hvalue, Int.neg_one_mul]

/-- A number is read in its parts: the whole one, which has no zero in front of other digits, and what
stands behind it. -/
theorem number?_eq {behind rest' : List Char} {ds : List Nat} {exponent : Option Int} (h : AllDigits whole)
    (hne : whole ≠ []) (hzero : (values whole).head? = some 0 → whole.length = 1)
    (hbehind : EndsDigits behind) (hfraction : fraction? behind = some (ds, rest'))
    (hexponent : exponent? rest' = some (exponent, rest)) :
    number? negative (whole ++ behind) = some (⟨negative, values whole, ds, exponent⟩, rest) := by
  have hlead : ¬ ((values whole).head? = some 0 ∧ (values whole).length ≠ 1) := by
    rw [h.length_values]
    exact fun hboth => hboth.2 (hzero hboth.1)
  unfold number?
  rw [digitRun?_append h hne hbehind]
  show (if _ then _ else _) = _
  rw [if_neg hlead, hfraction]
  show (exponent? rest').bind _ = _
  rw [hexponent]
  rfl

theorem length_of_head?_digits {n : Nat} (h : (values (digits n)).head? = some 0) :
    (digits n).length = 1 := by
  rw [Text.eq_zero_of_head?_digits h]
  rfl

theorem number?_whole (n : Nat) (hrest : EndsNumber rest) :
    number? negative (digits n ++ rest) = some (⟨negative, values (digits n), [], none⟩, rest) :=
  number?_eq (Text.allDigits_digits n) (Text.digits_ne_nil n) length_of_head?_digits hrest.endsDigits
    (fraction?_of_ends hrest) (exponent?_of_ends hrest)

theorem number?_fraction (n : Nat) (hdigits : AllDigits fraction) (hne : fraction ≠ [])
    (hrest : EndsNumber rest) :
    number? negative (digits n ++ '.' :: (fraction ++ rest)) =
      some (⟨negative, values (digits n), values fraction, none⟩, rest) :=
  number?_eq (Text.allDigits_digits n) (Text.digits_ne_nil n) length_of_head?_digits (endsDigits_cons rfl _)
    (digitRun?_append hdigits hne hrest.endsDigits) (exponent?_of_ends hrest)

theorem number?_exponential {d : Char} (hd : AllDigits [d]) (hdigits : AllDigits fraction) (n : Nat)
    (hrest : EndsNumber rest) :
    number? negative ([d] ++ ((if fraction = [] then [] else '.' :: fraction) ++
      'e' :: '-' :: (digits n ++ rest))) = some (⟨negative, values [d], values fraction, some (-n)⟩, rest) := by
  have hexponent := exponent?_minus n hrest
  by_cases hne : fraction = []
  · rw [if_pos hne, hne]
    exact number?_eq hd (List.cons_ne_nil _ _) (fun _ => rfl) (endsDigits_cons rfl _) rfl hexponent
  · rw [if_neg hne]
    exact number?_eq hd (List.cons_ne_nil _ _) (fun _ => rfl) (endsDigits_cons rfl _)
      (digitRun?_append hdigits hne (endsDigits_cons rfl _)) hexponent

/-! ## What literals stand for -/

namespace NumberLiteral

/-- Digits that fit 64 bits make a significand, however many of them stand behind the point. -/
theorem magnitude?_eq (h : AllDigits whole) (hdigits : AllDigits fraction) (exponent : Option Int)
    (hfits : Nat.ofDigitChars 10 (whole ++ fraction) 0 ≤ maxUnsigned) :
    magnitude? ⟨negative, values whole, values fraction, exponent⟩ =
      Binary64.ofSignificand? (Nat.ofDigitChars 10 (whole ++ fraction) 0)
        (exponent.getD 0 - fraction.length) := by
  rw [Nat.ofDigitChars_append] at hfits ⊢
  have hwhole : Nat.ofDigitChars 10 whole 0 ≤ maxUnsigned := (Text.le_ofDigitChars _ fraction).trans hfits
  unfold magnitude?
  dsimp only
  rw [takeDigits_values h hwhole]
  dsimp only
  rw [takeDigits_values hdigits hfits, hdigits.length_values]
  congr 1
  simp only [List.length_nil]
  omega

theorem integer?_of_whole {n : Nat} (h : n ≤ maxUnsigned) :
    integer? ⟨negative, values (digits n), [], none⟩ =
      if !negative then some (n : Int) else if 0 < n ∧ n ≤ twoTo 63 then some (-n) else none := by
  have hfits : Nat.ofDigitChars 10 (digits n) 0 ≤ maxUnsigned := by rwa [Text.ofDigitChars_digits]
  unfold integer?
  dsimp only
  rw [takeDigits_values (Text.allDigits_digits n) hfits, Text.ofDigitChars_digits]

theorem integer?_of_fraction (h : AllDigits fraction) (hne : fraction ≠ []) (ds : List Nat)
    (exponent : Option Int) : integer? ⟨negative, ds, values fraction, exponent⟩ = none := by
  cases fraction with
  | nil => exact absurd rfl hne
  | cons c cs =>
    rw [h.values_eq_map]
    rfl

theorem integer?_of_exponent (ds ds' : List Nat) (exponent : Int) :
    integer? ⟨negative, ds, ds', some exponent⟩ = none := by
  cases ds' <;> rfl

end NumberLiteral

/-! ## Notations -/

/-- Whether a text is read as a double, wherever it ends, and as that of the given number. -/
def ReadsAs (cs : List Char) (q : ℚ) : Prop :=
  ∀ negative rest, EndsNumber rest → ∃ lit, number? negative (cs ++ rest) = some (lit, rest) ∧
    lit.negative = negative ∧ lit.integer? = none ∧ lit.magnitude? = Binary64.ofRat? q

variable {s : Scientific}

/-- Significands of so many bits fit 64. -/
theorem le_maxUnsigned {n : Nat} (h : n < twoTo Binary64.precision) : n ≤ NumberLiteral.maxUnsigned :=
  h.le.trans (by decide)

theorem readsAs_plain_of_neg (h : s.IsExact) (hneg : s.power < 0) : ReadsAs (s.plain true) s.toRat := by
  intro negative rest hrest
  obtain ⟨whole, fraction, hlength, hdigits, hall, hplain⟩ := Scientific.plain_of_neg hneg
  have hne : fraction ≠ [] := by
    rintro rfl
    rw [List.length_nil] at hlength
    omega
  refine ⟨_, ?_, rfl, NumberLiteral.integer?_of_fraction hdigits hne (values (digits whole)) none, ?_⟩
  · rw [hplain, List.append_assoc, List.cons_append]
    exact number?_fraction whole hdigits hne hrest
  · rw [NumberLiteral.magnitude?_eq (Text.allDigits_digits whole) hdigits none
      (hall.le.trans (le_maxUnsigned h.bits)), hall, hlength, ← h.ofSignificand?_eq hneg]
    congr 1
    simp only [Option.getD_none]
    omega

/-- A whole number is read with a zero behind the point, as ten times the number over ten. -/
theorem readsAs_plain_of_nonneg (hnonneg : 0 ≤ s.power) (hsmall : s.toRat < 10 ^ 15) :
    ReadsAs (s.plain true) s.toRat := by
  intro negative rest hrest
  set whole := s.significand * tenTo s.power.toNat with hwhole
  have hvalue : s.toRat = whole := by
    rw [hwhole, Scientific.toRat, Nat.cast_mul, cast_tenTo, ← zpow_natCast, Int.toNat_of_nonneg hnonneg]
  have hbound : whole < 10 ^ 15 := by
    rw [hvalue] at hsmall
    exact_mod_cast hsmall
  have hzero : AllDigits ['0'] := by simp [AllDigits]
  have hall : Nat.ofDigitChars 10 (digits whole ++ ['0']) 0 = 10 * whole := by
    rw [Nat.ofDigitChars_append, Text.ofDigitChars_digits]
    rfl
  refine ⟨_, ?_, rfl,
    NumberLiteral.integer?_of_fraction hzero (List.cons_ne_nil _ _) (values (digits whole)) none, ?_⟩
  · rw [Scientific.plain_of_nonneg hnonneg, if_pos rfl, List.append_assoc]
    exact number?_fraction whole hzero (List.cons_ne_nil _ _) hrest
  · have hfits : 10 * whole ≤ NumberLiteral.maxUnsigned := by
      have : 10 * 10 ^ 15 ≤ NumberLiteral.maxUnsigned := by decide
      omega
    -- ten times a number ends in a bit that is zero
    have hbits : 5 * whole < twoTo Binary64.precision := by
      have : 5 * 10 ^ 15 ≤ twoTo Binary64.precision := by decide
      omega
    have hrounded : Binary64.ofSignificand? (10 * whole) (-(1 : Nat)) =
        Binary64.ofRat? ((10 * whole : Nat) / 10 ^ 1) :=
      Binary64.ofSignificand?_eq_ofRat? (5 * whole) 1 (by omega) hbits (by decide) (by decide) (by decide)
    rw [NumberLiteral.magnitude?_eq (Text.allDigits_digits whole) hzero none (hall.le.trans hfits), hall]
    refine hrounded.trans ?_
    rw [hvalue, pow_one, Nat.cast_mul, Nat.cast_ofNat, mul_div_cancel_left₀ _ (by norm_num)]

theorem readsAs_exponential (h : s.IsExact) (hleading : s.leading < 0) :
    ReadsAs s.exponential s.toRat := by
  intro negative rest hrest
  have hdigits := Text.allDigits_digits s.significand
  have hall := Text.ofDigitChars_digits s.significand
  have hpower : s.leading = s.power + (digits s.significand).length - 1 := rfl
  have hexponential : s.exponential = (digits s.significand).take 1 ++
      (if (digits s.significand).length = 1 then [] else '.' :: (digits s.significand).drop 1) ++
      'e' :: (if s.leading < 0 then '-' else '+') :: digits s.leading.natAbs := rfl
  rw [if_pos hleading] at hexponential
  obtain ⟨d, ds, hcons⟩ := List.exists_cons_of_ne_nil (Text.digits_ne_nil s.significand)
  rw [hcons] at hdigits hall hexponential
  rw [hcons, List.length_cons] at hpower
  have hd : AllDigits [d] := fun c hc => hdigits c (List.mem_cons.mpr (.inl (List.mem_singleton.mp hc)))
  have hds : AllDigits ds := fun c hc => hdigits c (List.mem_cons_of_mem _ hc)
  refine ⟨_, ?_, rfl, NumberLiteral.integer?_of_exponent (values [d]) (values ds) (-s.leading.natAbs), ?_⟩
  · have hfraction : (if (d :: ds).length = 1 then [] else '.' :: (d :: ds).drop 1) =
        if ds = [] then [] else '.' :: ds := by simp
    rw [hexponential, hfraction, List.append_assoc, List.append_assoc]
    exact number?_exponential hd hds s.leading.natAbs hrest
  · have hall : Nat.ofDigitChars 10 ([d] ++ ds) 0 = s.significand := hall
    rw [NumberLiteral.magnitude?_eq hd hds _ (hall.le.trans (le_maxUnsigned h.bits)), hall,
      ← h.ofSignificand?_eq (by omega)]
    congr 1
    simp only [Option.getD_some]
    omega

theorem leading_lt (hpos : s.significand ≠ 0) (hsmall : s.toRat < 10 ^ 15) : s.leading < 15 := by
  have hlength := Text.length_digits (Nat.pos_of_ne_zero hpos)
  have hleading : s.leading = Nat.log 10 s.significand + s.power := by
    show s.power + (digits s.significand).length - 1 = _
    omega
  have hlow : (10 : ℚ) ^ s.leading ≤ s.toRat := by
    rw [hleading, zpow_add₀ (by norm_num), zpow_natCast]
    refine mul_le_mul_of_nonneg_right ?_ (by positivity)
    exact_mod_cast Nat.pow_log_le_self 10 hpos
  refine (zpow_lt_zpow_iff_right₀ (by norm_num : (1 : ℚ) < 10)).mp (hlow.trans_lt ?_)
  exact_mod_cast hsmall

/-- In the notation that is chosen for it, a number of few digits is read as itself. -/
theorem readsAs_written (h : s.IsExact) (hpos : s.significand ≠ 0) (hsmall : s.toRat < 10 ^ 15) :
    ReadsAs (if plainFrom ≤ s.leading ∧ s.leading < exponentialFrom then s.plain true else s.exponential)
      s.toRat := by
  have hleading := leading_lt hpos hsmall
  split
  · rcases Int.lt_or_le s.power 0 with hneg | hnonneg
    · exact readsAs_plain_of_neg h hneg
    · exact readsAs_plain_of_nonneg hnonneg hsmall
  · rename_i houtside
    simp only [plainFrom, exponentialFrom] at houtside
    exact readsAs_exponential h (by omega)

/-! ## Values that are numbers -/

theorem token?_of_isDigit {c : Char} (h : c.isDigit = true) (cs : List Char) :
    token? c cs = (number? false (c :: cs)).map fun (n, rest) => (.number n, rest) := by
  unfold token?
  split <;> first | rfl | cases h

theorem isSpace_of_isDigit {c : Char} (h : c.isDigit = true) : isSpace c = false := by
  have hne {k : Char} (hk : k.isDigit = false) : (c == k) = false :=
    beq_false_of_ne fun hc => Bool.noConfusion ((hc ▸ h).symm.trans hk)
  unfold isSpace
  rw [hne rfl, hne rfl, hne rfl, hne rfl]
  rfl

/-- What is read as a number begins with a digit. -/
theorem exists_cons_of_number? {text : List Char} {read : NumberLiteral × List Char}
    (h : number? negative text = some read) : ∃ c cs, text = c :: cs ∧ c.isDigit = true := by
  cases text with
  | nil => cases h
  | cons c cs =>
    refine ⟨c, cs, rfl, ?_⟩
    by_contra hc
    have hnone : digitRun? (c :: cs) = none := by
      unfold digitRun? Text.spanDigits
      rw [List.takeWhile_cons_of_neg hc]
    unfold number? at h
    rw [hnone] at h
    cases h

/-- Whether a value is written as a number, from which it is read back wherever the number ends. -/
def Survives {α : Type} [Form α] (a : α) : Prop :=
  ∀ rest, EndsNumber rest → ∃ c cs lit, write a = c :: cs ∧ isSpace c = false ∧
    token? c (cs ++ rest) = some (.number lit, rest) ∧ read? (.number lit) = some a

/-- A value that is written as a number behind a sign survives if the number is read as a literal for it. -/
theorem survives_of_number? {α : Type} [Form α] {a : α} (negative : Bool) (cs : List Char)
    (hwrite : write a = if negative then '-' :: cs else cs)
    (h : ∀ rest, EndsNumber rest →
      ∃ lit, number? negative (cs ++ rest) = some (lit, rest) ∧ read? (.number lit) = some a) :
    Survives a := by
  intro rest hrest
  obtain ⟨lit, hlit, hread⟩ := h rest hrest
  cases negative with
  | true => exact ⟨'-', cs, lit, hwrite, rfl, congrArg (Option.map _) hlit, hread⟩
  | false =>
    obtain ⟨c, text, hcons, hc⟩ := exists_cons_of_number? hlit
    cases cs with
    | nil =>
      rw [List.nil_append] at hcons
      rw [hrest.endsDigits c (by rw [hcons]; rfl)] at hc
      cases hc
    | cons d ds =>
      obtain ⟨rfl, -⟩ := List.cons.inj hcons
      refine ⟨d, ds, lit, hwrite, isSpace_of_isDigit hc, ?_, hread⟩
      rw [token?_of_isDigit hc, ← List.cons_append, hlit]
      rfl

/-- Whole numbers of 64 bits survive. -/
theorem survives_int {n : Int} (hlow : -(twoTo 63 : Nat) ≤ n) (hhigh : n < (twoTo 63 : Nat)) : Survives n := by
  refine survives_of_number? (decide (n < 0)) (digits n.natAbs) ?_ fun rest hrest =>
    ⟨_, number?_whole n.natAbs hrest, ?_⟩
  · show Text.signedDigits n = _
    simp only [Text.signedDigits, decide_eq_true_eq]
  · have hbits : n.natAbs ≤ twoTo 63 := by omega
    show (NumberLiteral.integer? _).bind _ = _
    rw [NumberLiteral.integer?_of_whole (hbits.trans (by decide))]
    rcases Int.lt_or_le n 0 with hneg | hnonneg
    · rw [decide_eq_true hneg, if_neg (by decide), if_pos ⟨by omega, hbits⟩, Option.bind_some,
        show -(n.natAbs : Int) = n by omega]
      exact if_pos ⟨hlow, hhigh⟩
    · rw [decide_eq_false (by omega), if_pos Bool.not_false, Option.bind_some, Int.natAbs_of_nonneg hnonneg]
      exact if_pos ⟨hlow, hhigh⟩

end Lotbook.Json
