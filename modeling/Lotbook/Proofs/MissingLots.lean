/-
# Lotbook.Proofs.MissingLots -- whether a sale is missing lots

The question whether a sale is missing lots (`Ledger.isMissingLots`) is passed on from a leg that adds
shares to the one that removes them. It is answered there, since the legs of a transfer carry opposite
shares, so that it is passed on at most once (`Ledger.Reachable.answers`). After a matching without
rounding, the lots of the sale cover what the matching has taken more than before
(`Ledger.Placed.lotSum_coverDemand`). The sale is then missing lots exactly if some of it was left, unless
the sum of its lots is itself rounded (`Ledger.isMissingLots_after_match`).
-/
import Lotbook.Proofs.Matchings
import Lotbook.Proofs.Mirrors

namespace Lotbook.Ledger

open Decimal

variable {l l₁ : Ledger} {sale leg other purchase : EntryId} {account : AccountId}
  {candidates : List EntryId} {demand rest : Decimal} {a : Allocation} {e : Entry}

/-! ## Who answers -/

/-- Whether an entry never needs lots: one that is no transfer, in a category for an action without. -/
def isExempt (l : Ledger) (e : Entry) : Bool :=
  !e.isTransfer && (l.action? e).any fun action => !action.requiresLots

/-- Whether the lots of an entry do not exactly cover the shares that it removes. -/
def isUncovered (l : Ledger) (sale : EntryId) (e : Entry) : Except ArithmeticFault Bool := do
  return decide ((← e.quantityOrZero.add (← l.coveredShares sale)) ≠ 0)

/-- The answer to the question whether an entry is missing lots, and how often the question is passed on
until it is answered. -/
inductive Answers (l : Ledger) : EntryId → Nat → Except ArithmeticFault Bool → Prop
  | unknown {sale : EntryId} (he : l.entry? sale = none) : Answers l sale 0 (.ok false)
  | noShares {sale : EntryId} {e : Entry} (he : l.entry? sale = some e) (hzero : e.quantityOrZero = 0) :
      Answers l sale 0 (.ok false)
  | exempt {sale : EntryId} {e : Entry} (he : l.entry? sale = some e) (hsome : e.quantityOrZero ≠ 0)
      (hexempt : l.isExempt e = true) : Answers l sale 0 (.ok false)
  | removes {sale : EntryId} {e : Entry} (he : l.entry? sale = some e)
      (hexempt : l.isExempt e = false) (hneg : e.quantityOrZero < 0) :
      Answers l sale 0 (l.isUncovered sale e)
  | adds {sale : EntryId} {e : Entry} (he : l.entry? sale = some e) (hexempt : l.isExempt e = false)
      (hpos : 0 < e.quantityOrZero) (halone : e.related = none) : Answers l sale 0 (.ok false)
  | passedOn {sale other : EntryId} {e : Entry} {passes : Nat} {answer : Except ArithmeticFault Bool}
      (he : l.entry? sale = some e) (hexempt : l.isExempt e = false) (hpos : 0 < e.quantityOrZero)
      (hother : e.related = some other) (h : Answers l other passes answer) :
      Answers l sale (passes + 1) answer

theorem isExempt_eq_false (l : Ledger)
    (h : e.isTransfer = true ∨ ∀ action ∈ l.action? e, action.requiresLots = true) :
    l.isExempt e = false := by
  unfold isExempt
  rcases h with htransfer | hrequires
  · rw [htransfer]
    rfl
  · rw [Bool.and_eq_false_iff]
    cases haction : l.action? e with
    | none => exact .inr rfl
    | some action => exact .inr (by simp [hrequires action haction])

theorem isExempt_of_related (l : Ledger) (hother : e.related = some other) : l.isExempt e = false :=
  l.isExempt_eq_false (.inl (by rw [Entry.isTransfer, hother]; rfl))

/-- What is asked of an entry, in order. -/
theorem isMissingLotsWithin_eq (he : l.entry? sale = some e) (passes : Nat) :
    l.isMissingLotsWithin passes sale =
      if e.quantityOrZero = 0 then .ok false
      else if l.isExempt e = true then .ok false
      else if e.quantityOrZero < 0 then l.isUncovered sale e
      else
        match passes, e.related with
        | passes + 1, some other => l.isMissingLotsWithin passes other
        | _, _ => .ok false := by
  rw [isMissingLotsWithin, he]
  rfl

theorem isMissingLotsWithin_removes (he : l.entry? sale = some e) (hexempt : l.isExempt e = false)
    (hneg : e.quantityOrZero < 0) (passes : Nat) :
    l.isMissingLotsWithin passes sale = l.isUncovered sale e := by
  have hsome : e.quantityOrZero ≠ 0 := ne_zero_of_neg hneg
  rw [isMissingLotsWithin_eq he, if_neg hsome, hexempt, if_neg Bool.false_ne_true, if_pos hneg]

theorem isMissingLotsWithin_adds (he : l.entry? sale = some e) (hexempt : l.isExempt e = false)
    (hpos : 0 < e.quantityOrZero) (passes : Nat) :
    l.isMissingLotsWithin passes sale =
      match passes, e.related with
      | passes + 1, some other => l.isMissingLotsWithin passes other
      | _, _ => .ok false := by
  have hsome : e.quantityOrZero ≠ 0 := ne_zero_of_pos hpos
  have hnot : ¬ e.quantityOrZero < 0 := Int.not_lt.mpr (Int.le_of_lt hpos)
  rw [isMissingLotsWithin_eq he, if_neg hsome, hexempt, if_neg Bool.false_ne_true, if_neg hnot]

/-- An answer is found within as many passes as it takes, and more are not needed. -/
theorem Answers.isMissingLotsWithin_eq {passes : Nat} {answer : Except ArithmeticFault Bool}
    (h : l.Answers sale passes answer) (more : Nat) :
    l.isMissingLotsWithin (passes + more) sale = answer := by
  induction h with
  | unknown he => rw [isMissingLotsWithin, he]
  | noShares he hzero => rw [Ledger.isMissingLotsWithin_eq he, if_pos hzero]
  | exempt he hsome hexempt => rw [Ledger.isMissingLotsWithin_eq he, if_neg hsome, if_pos hexempt]
  | removes he hexempt hneg => exact isMissingLotsWithin_removes he hexempt hneg _
  | adds he hexempt hpos halone =>
    rw [isMissingLotsWithin_adds he hexempt hpos, halone]
    split
    · rename_i hrelated
      cases hrelated
    · rfl
  | passedOn he hexempt hpos hother _ ih =>
    rw [isMissingLotsWithin_adds he hexempt hpos, hother, Nat.succ_add]
    exact ih

/-! ## Legs that answer for each other -/

theorem units_quantityOrZero_neg {o : Entry} (h : o.quantity = e.quantity.map (-·)) :
    o.quantityOrZero.units = -e.quantityOrZero.units := by
  unfold Entry.quantityOrZero
  rw [h]
  cases e.quantity <;> rfl

/-- The leg that removes the shares of a transfer answers the question, and the other one asks it. -/
theorem Paired.answers (h : l.Paired) (he : l.entry? leg = some e) (hother : e.related = some other)
    (hpos : 0 < e.quantityOrZero) :
    ∃ answer, l.Answers other 0 answer ∧ l.Answers leg 1 answer := by
  obtain ⟨-, o, ho, hback, -, hquantity⟩ := h leg e other he hother
  have hneg : o.quantityOrZero < 0 := by
    have hunits := units_quantityOrZero_neg hquantity
    change 0 < e.quantityOrZero.units at hpos
    show o.quantityOrZero.units < 0
    omega
  have hanswers := Answers.removes ho (l.isExempt_of_related hback) hneg
  exact ⟨_, hanswers, .passedOn he (l.isExempt_of_related hother) hpos hother hanswers⟩

/-- In a ledger that is reached, the question is passed on at most once. -/
theorem Paired.exists_answers (h : l.Paired) (sale : EntryId) :
    ∃ passes answer, passes ≤ 1 ∧ l.Answers sale passes answer := by
  cases he : l.entry? sale with
  | none => exact ⟨0, _, Nat.zero_le 1, .unknown he⟩
  | some e =>
    by_cases hzero : e.quantityOrZero = 0
    · exact ⟨0, _, Nat.zero_le 1, .noShares he hzero⟩
    cases hexempt : l.isExempt e with
    | true => exact ⟨0, _, Nat.zero_le 1, .exempt he hzero hexempt⟩
    | false =>
      by_cases hneg : e.quantityOrZero < 0
      · exact ⟨0, _, Nat.zero_le 1, .removes he hexempt hneg⟩
      have hpos : 0 < e.quantityOrZero := pos_of_ne_zero (Int.not_lt.mp hneg) hzero
      cases hother : e.related with
      | none => exact ⟨0, _, Nat.zero_le 1, .adds he hexempt hpos hother⟩
      | some other =>
        obtain ⟨answer, -, hanswers⟩ := h.answers he hother hpos
        exact ⟨1, answer, Nat.le_refl 1, hanswers⟩

theorem Answers.isMissingLots_eq {passes : Nat} {answer : Except ArithmeticFault Bool}
    (h : l.Answers sale passes answer) (hpasses : passes ≤ 1) : l.isMissingLots sale = answer := by
  obtain ⟨more, hmore⟩ := Nat.exists_eq_add_of_le hpasses
  rw [isMissingLots, hmore]
  exact h.isMissingLotsWithin_eq more

/-- Both legs of a transfer of shares have the same answer. -/
theorem Paired.isMissingLots_eq (h : l.Paired) (he : l.entry? leg = some e)
    (hother : e.related = some other) (hsome : e.quantityOrZero ≠ 0) :
    l.isMissingLots other = l.isMissingLots leg := by
  by_cases hneg : e.quantityOrZero < 0
  · obtain ⟨-, o, ho, hback, -, hquantity⟩ := h leg e other he hother
    have hpos : 0 < o.quantityOrZero := by
      have hunits := units_quantityOrZero_neg hquantity
      change e.quantityOrZero.units < 0 at hneg
      show 0 < o.quantityOrZero.units
      omega
    obtain ⟨answer, hanswers, hpassed⟩ := h.answers ho hback hpos
    rw [hpassed.isMissingLots_eq (Nat.le_refl 1), hanswers.isMissingLots_eq (Nat.zero_le 1)]
  · have hpos : 0 < e.quantityOrZero := pos_of_ne_zero (Int.not_lt.mp hneg) hsome
    obtain ⟨answer, hanswers, hpassed⟩ := h.answers he hother hpos
    rw [hpassed.isMissingLots_eq (Nat.le_refl 1), hanswers.isMissingLots_eq (Nat.zero_le 1)]

/-! ## What a matching covers -/

/-- What comes of an offer, whatever the account of the purchase is: the sale is covered as much more as is
taken of the demand. -/
structure Covers (l : Ledger) (sale : EntryId) (account : AccountId) (demand rest : Decimal)
    (l₁ : Ledger) : Prop where
  placed : l₁.Placed sale account
  nonneg : 0 ≤ rest
  covered : l₁.lotSum (covered sale) = l.lotSum (covered sale) + (demand.units - rest.units)
  same : l.SameButLots l₁

theorem Placed.covers_refl (h : l.Placed sale account) (hdemand : 0 ≤ demand) :
    l.Covers sale account demand demand l :=
  ⟨h, hdemand, by rw [Int.sub_self, Int.add_zero], .refl l⟩

theorem Covers.trans {d r r' : Decimal} {l₂ : Ledger} (h : l.Covers sale account d r l₁)
    (h' : l₁.Covers sale account r r' l₂) : l.Covers sale account d r' l₂ where
  placed := h'.placed
  nonneg := h'.nonneg
  covered := by
    rw [h'.covered, h.covered]
    omega
  same := h.same.trans h'.same

theorem Placed.covers_offer (h : l.Placed sale account) (hdemand : 0 ≤ demand)
    (hexact : OffersExactly sale (demand, l) purchase)
    (hoffer : offer sale (demand, l) purchase = .ok (rest, l₁)) :
    l.Covers sale account demand rest l₁ := by
  by_cases hidle : demand = 0 ∨ purchase = sale
  · rw [offer, if_pos hidle] at hoffer
    obtain ⟨rfl, rfl⟩ := Prod.mk.inj (Except.ok.inj hoffer)
    exact h.covers_refl hdemand
  obtain ⟨hzero, hself⟩ := not_or.mp hidle
  obtain ⟨made, backed, lot₁, hmade, -, hkey, hshares, hrest, rfl⟩ :=
    h.offer_takes hself (pos_of_ne_zero hdemand hzero) hexact hoffer
  obtain ⟨hentry, -⟩ := h.withLot_eq_ok hmade
  split
  · obtain rfl : rest = demand := ext_units (by omega)
    exact h.covers_refl hdemand
  · have hle := (l.lotOrEmpty ⟨purchase, sale⟩).takes_le backed demand
    have hpurchase : lot₁.purchase = purchase := congrArg LotKey.purchase hkey
    have hput := l.lotSum_covered_put sale hkey rfl
    refine ⟨h.put (hpurchase ▸ hentry), ?_, ?_, sameButLots_mk ..⟩
    · show 0 ≤ rest.units
      omega
    · rw [hput]
      omega

/-- All offers of a matching together. -/
theorem Placed.covers (h : l.Placed sale account) (hdemand : 0 ≤ demand)
    (hexact : Throughout (offer sale) (OffersExactly sale) (demand, l) candidates)
    (hcover : l.coverDemand sale demand candidates = .ok (.ok a, l₁)) :
    l.Covers sale account demand a.unallocated l₁ := by
  induction candidates generalizing l demand a with
  | nil =>
    obtain ⟨ha, rfl⟩ := Prod.mk.inj (Except.ok.inj hcover)
    obtain rfl := Except.ok.inj ha
    exact h.covers_refl hdemand
  | cons purchase candidates ih =>
    obtain ⟨rest, l₂, b, hoffer, hrest, rfl⟩ := exists_offer hcover
    obtain ⟨hfirst, hothers⟩ := hexact.of_cons hoffer
    have hcovers := h.covers_offer hdemand hfirst hoffer
    have hunallocated : (if rest < demand then l.noted ⟨purchase, sale⟩ b else b).unallocated =
        b.unallocated := by
      split
      · exact unallocated_noted ..
      · rfl
    rw [hunallocated]
    exact hcovers.trans (ih hcovers.placed hcovers.nonneg hothers hrest)

/-! ## Sales that have just been matched -/

/-- Without rounding, an entry is uncovered exactly if its shares and those of its lots do not cancel out. -/
theorem isUncovered_eq (h : ∀ u ∈ partialSums ((l.lotsBySale sale).map Lot.adjustedShares),
      Representable u)
    (hsum : Representable (e.quantityOrZero.units + l.lotSum (covered sale))) :
    l.isUncovered sale e = .ok (decide (e.quantityOrZero.units + l.lotSum (covered sale) ≠ 0)) := by
  obtain ⟨c, hc, hunits⟩ := sum_exact h
  rw [sum_adjustedShares] at hunits
  obtain ⟨d, hd, hdifference⟩ := add_exact (a := e.quantityOrZero) (b := c) (hunits ▸ hsum)
  rw [hunits] at hdifference
  rw [isUncovered, coveredShares, hc]
  show ((e.quantityOrZero.add c) >>= fun d => .ok (decide (d ≠ 0))) = _
  rw [hd, ← hdifference]
  exact congrArg Except.ok (decide_eq_decide.mpr (not_congr eq_zero_iff))

/-- The question whether a sale is missing lots is answered after it has been passed on once at most, in
the same way for both legs of a transfer of shares. A sale that its lots do not cover more than once over
is missing lots, after a matching without rounding, exactly if some of it was left, provided that the sum
of its lots is not rounded either. -/
theorem isMissingLots_after_match (h : l.Reachable) :
    (∀ sale, ∃ passes ≤ 1, l.Answers sale passes (l.isMissingLots sale)) ∧
      (∀ leg e other, l.entry? leg = some e → e.related = some other → e.quantityOrZero ≠ 0 →
        l.isMissingLots other = l.isMissingLots leg) ∧
      ∀ sale e candidates a l₁, l.entry? sale = some e → e.quantityOrZero < 0 →
        (e.isTransfer = true ∨ ∀ action ∈ l.action? e, action.requiresLots = true) →
        l.lotSum (covered sale) ≤ -e.quantityOrZero.units → l.MatchesExactly sale candidates →
        l.allocateLots sale candidates = .ok (.ok a, l₁) →
        (∀ u ∈ partialSums ((l₁.lotsBySale sale).map Lot.adjustedShares), Representable u) →
        ∃ missing, l₁.isMissingLots sale = .ok missing ∧ (missing = true ↔ a.unallocated ≠ 0) := by
  have hpaired := h.sound.paired
  refine ⟨fun sale => ?_, fun leg e other he hother hsome => ?_, ?_⟩
  · obtain ⟨passes, answer, hpasses, hanswers⟩ := hpaired.exists_answers sale
    rw [hanswers.isMissingLots_eq hpasses]
    exact ⟨passes, hpasses, hanswers⟩
  · exact hpaired.isMissingLots_eq he hother hsome
  · intro sale e candidates a l₁ he hneg hneeds hcovered hexact hmatch hsums
    obtain ⟨t, ht, -⟩ := h.sound.exists_owner he
    have hplaced := h.placed (isBookedIn_eq_true.mpr ⟨t, ht, rfl⟩)
    have hlacking : l.lacking sale = -e.quantityOrZero.units - l.lotSum (covered sale) := by
      rw [lacking, he]
      rfl
    rw [hexact.allocateLots_eq he] at hmatch
    set demand : Decimal := (⟨l.lacking sale, hexact.lack⟩ : Decimal).max 0
    have hdemand : demand.units = l.lacking sale := by
      rw [units_max]
      exact Int.max_eq_left (show 0 ≤ l.lacking sale by omega)
    have hcovers := hplaced.covers (show 0 ≤ demand.units by omega) hexact.offers hmatch
    -- what is left uncovered is what was left of the demand
    have hleft : e.quantityOrZero.units + l₁.lotSum (covered sale) = -a.unallocated.units := by
      have hmore := hcovers.covered
      omega
    have he₁ : l₁.entry? sale = some e := by
      rw [hcovers.same]
      exact he
    have hexempt : l₁.isExempt e = false := by
      have hsame : l₁.isExempt e = l.isExempt e := by rw [hcovers.same]; rfl
      rw [hsame]
      exact l.isExempt_eq_false hneeds
    have hrepresentable : Representable (e.quantityOrZero.units + l₁.lotSum (covered sale)) := by
      rw [hleft]
      exact a.unallocated.representable.neg
    refine ⟨_, (isMissingLotsWithin_removes he₁ hexempt hneg 1).trans
      (isUncovered_eq hsums hrepresentable), ?_⟩
    rw [hleft, decide_eq_true_iff, Int.neg_ne_zero]
    exact not_congr eq_zero_iff.symm

/-- Of the six shares to be sold, five are there. The leg that moved four of them there asks the other one,
which they cover. -/
theorem isMissingLots_after_match_soldShort :
    ∃ (l l₁ : Ledger) (a : Allocation), l.Reachable ∧
      (∃ passes ≤ 1, l.Answers ⟨7⟩ passes (.ok false)) ∧ l.isMissingLots ⟨6⟩ = .ok false ∧
      l.MatchesExactly ⟨9⟩ [⟨3⟩, ⟨9⟩, ⟨3⟩, ⟨11⟩, ⟨11⟩] ∧
      l.allocateLots ⟨9⟩ [⟨3⟩, ⟨9⟩, ⟨3⟩, ⟨11⟩, ⟨11⟩] = .ok (.ok a, l₁) ∧ a.unallocated = 1 ∧
      l₁.isMissingLots ⟨9⟩ = .ok true := by
  have hcheck : (((Ledger.new .standard).performAll soldShort).toOption.any fun l =>
      (l.allocateLots ⟨9⟩ [⟨3⟩, ⟨9⟩, ⟨3⟩, ⟨11⟩, ⟨11⟩]).toOption.any fun r => r.1.toOption.any fun a =>
      (l.entry? ⟨7⟩).any fun leg => (l.entry? ⟨9⟩).any fun e =>
        leg.related = some ⟨6⟩ ∧ leg.quantityOrZero ≠ 0 ∧ l.isMissingLots ⟨7⟩ = .ok false ∧
        e.quantityOrZero < 0 ∧ (∀ action ∈ l.action? e, action.requiresLots = true) ∧
        l.lotSum (covered ⟨9⟩) ≤ -e.quantityOrZero.units ∧
        l.MatchesExactly ⟨9⟩ [⟨3⟩, ⟨9⟩, ⟨3⟩, ⟨11⟩, ⟨11⟩] ∧
        (∀ u ∈ partialSums ((r.2.lotsBySale ⟨9⟩).map Lot.adjustedShares), Representable u) ∧
        a.unallocated = 1) = true := by
    decide +kernel
  obtain ⟨l, hl, hcheck⟩ := exists_ok_of_any hcheck
  obtain ⟨⟨outcome, l₁⟩, hmatch, hcheck⟩ := exists_ok_of_any hcheck
  obtain ⟨a, rfl, hcheck⟩ := exists_ok_of_any hcheck
  obtain ⟨leg, hleg, hcheck⟩ := (Option.any_eq_true _ _).mp hcheck
  obtain ⟨e, he, hcheck⟩ := (Option.any_eq_true _ _).mp hcheck
  obtain ⟨hrelated, hsome, hlegs, hneg, hneeds, hcovered, hexact, hsums, hleft⟩ :=
    of_decide_eq_true hcheck
  have hreachable := (Reachable.new .standard).performAll hl
  obtain ⟨hanswers, hboth, hmissing⟩ := isMissingLots_after_match hreachable
  obtain ⟨missing, hafter, hiff⟩ :=
    hmissing ⟨9⟩ e _ a l₁ he hneg (.inr hneeds) hcovered hexact hmatch hsums
  have hanswers := hanswers ⟨7⟩
  rw [hlegs] at hanswers
  refine ⟨l, l₁, a, hreachable, hanswers, (hboth ⟨7⟩ leg ⟨6⟩ hleg hrelated hsome).trans hlegs, hexact,
    hmatch, hleft, ?_⟩
  rw [hafter, hiff.mpr (by rw [hleft]; decide)]

/-- A hundred-millionth of a share. -/
def speck : Decimal := .ofMantissa 10 9 (by decide)

/-- A hundred-millionth of that. -/
def speckOfSpeck : Decimal := .ofMantissa 10 17 (by decide)

def hundredQuintillion : Decimal := .ofMantissa (10 ^ 20) 0 (by decide)

def allButASpeck : Decimal := .ofMantissa (10 ^ 28 - 1) 8 (by decide)

/-- Of a hundred quintillion shares to be sold, all but a speck are covered. A speck has been bought, but a
speck of it is taken already. -/
def soldAllButASpeck : List Edit := [
  .addSecurity "S",
  .addTransaction ⟨7⟩ (.june 20) (some ⟨1⟩),
  .addEntry ⟨2⟩ none (some speck) none,
  .addEntry ⟨2⟩ none (some hundredQuintillion) none,
  .addTransaction ⟨7⟩ (.june 21) (some ⟨1⟩),
  .addEntry ⟨5⟩ none (some (-1)) none,
  .addEntry ⟨5⟩ none (some (-hundredQuintillion)) none,
  .insertLot ⟨⟨3⟩, ⟨6⟩⟩,
  .setLotShares ⟨⟨3⟩, ⟨6⟩⟩ speckOfSpeck,
  .insertLot ⟨⟨4⟩, ⟨7⟩⟩,
  .setLotShares ⟨⟨4⟩, ⟨7⟩⟩ allButASpeck]

/-- A sale that has been matched without rounding, and of which some is left, but is not missing lots: the
sum of its lots has too many digits and is rounded to all of it. -/
theorem exists_left_not_missing :
    ∃ (l l₁ : Ledger) (e : Entry) (a : Allocation), l.Reachable ∧ l.entry? ⟨7⟩ = some e ∧
      e.quantityOrZero < 0 ∧ l.action? e = none ∧
      l.lotSum (covered ⟨7⟩) ≤ -e.quantityOrZero.units ∧ l.MatchesExactly ⟨7⟩ [⟨3⟩] ∧
      l.allocateLots ⟨7⟩ [⟨3⟩] = .ok (.ok a, l₁) ∧ a.unallocated ≠ 0 ∧
      l₁.isMissingLots ⟨7⟩ = .ok false := by
  have hcheck : (((Ledger.new ⟨.inclusive, 8, .firstIn⟩).performAll soldAllButASpeck).toOption.any fun l =>
      (l.allocateLots ⟨7⟩ [⟨3⟩]).toOption.any fun r => r.1.toOption.any fun a =>
      (l.entry? ⟨7⟩).any fun e => e.quantityOrZero < 0 ∧ l.action? e = none ∧
        l.lotSum (covered ⟨7⟩) ≤ -e.quantityOrZero.units ∧ l.MatchesExactly ⟨7⟩ [⟨3⟩] ∧
        a.unallocated ≠ 0 ∧ r.2.isMissingLots ⟨7⟩ = .ok false) = true := by
    decide +kernel
  obtain ⟨l, hl, hcheck⟩ := exists_ok_of_any hcheck
  obtain ⟨⟨outcome, l₁⟩, hmatch, hcheck⟩ := exists_ok_of_any hcheck
  obtain ⟨a, rfl, hcheck⟩ := exists_ok_of_any hcheck
  obtain ⟨e, he, hcheck⟩ := (Option.any_eq_true _ _).mp hcheck
  obtain ⟨hneg, haction, hcovered, hexact, hleft, hmissing⟩ := of_decide_eq_true hcheck
  exact ⟨l, l₁, e, a, (Reachable.new _).performAll hl, he, hneg, haction, hcovered, hexact, hmatch,
    hleft, hmissing⟩

end Lotbook.Ledger
