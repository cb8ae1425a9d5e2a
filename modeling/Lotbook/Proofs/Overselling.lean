/-
# Lotbook.Proofs.Overselling -- that matching does not sell what is not there

Sales are matched one after another, in any order and with any purchases. As long as no number is too
large, each matching comes through with every purchase in stock, or it stops at a contract, and it is
known when that may happen (`Ledger.matching_keeps_stock`):

* Of a purchase that every sale finds in whole, no more is taken than it has. Where an earlier sale
  took a part that does not come in the places that shares are kept at, what a later sale takes may be
  rounded up past the rest, and the matching stops.
* One share that becomes more than a trillion, or more than ten million shares that become one, are too
  far apart for shares to be found again.

The invariant is `Stocked`, with what a sale lacks while it is matched (`Matching`). A lot that grows
keeps it (`Growth.Measured.comesOut`), so do making and dropping lots, and so does a whole run by
induction: over the candidates of a sale, and then over the sales.
-/
import Lotbook.Proofs.Arrangements
import Lotbook.Proofs.Capacity

namespace Lotbook.Ledger

open Decimal

variable {l l₁ start : Ledger} {account : AccountId}

/-! ## Lots that change

What a purchase has given and how far a sale is covered are sums over all lots. One lot is put or taken
out at a time, and most sums do not notice, because the lot does not count in them.
-/

/-- A sum stays as it is when a lot that does not count in it is put for one that does not, either. -/
theorem lotSum_put_of_eq_zero {f : Lot → Int} {lot : Lot} (hnew : f lot = 0)
    (hold : ∀ x, l.lot? lot.key = some x → f x = 0) :
    lotSum { l with lots := l.lots.put lot } f = l.lotSum f := by
  have hput := l.lotSum_put f lot
  have hzero : ((l.lot? lot.key).map f).getD 0 = 0 := by
    cases hlot : l.lot? lot.key with
    | none => rfl
    | some x => exact hold x hlot
  omega

theorem lotSum_erase_of_eq_zero {f : Lot → Int} {key : LotKey}
    (hold : ∀ x, l.lot? key = some x → f x = 0) :
    lotSum { l with lots := l.lots.erase key } f = l.lotSum f := by
  have herase := l.lotSum_erase f key
  have hzero : ((l.lot? key).map f).getD 0 = 0 := by
    cases hlot : l.lot? key with
    | none => rfl
    | some x => exact hold x hlot
  omega

/-- A sum of what lots have does not grow when one is taken out. -/
theorem lotSum_erase_le {f : Lot → Int} (h : ∀ lot ∈ l.lots.items, 0 ≤ f lot) (key : LotKey) :
    lotSum { l with lots := l.lots.erase key } f ≤ l.lotSum f := by
  have herase := l.lotSum_erase f key
  have hnonneg : 0 ≤ ((l.lot? key).map f).getD 0 := by
    cases hlot : l.lot? key with
    | none => exact Int.le_refl 0
    | some lot => exact h lot (Register.get?_eq_some_iff.mp hlot).1
  omega

/-- What a sale takes itself is not taken by others. -/
theorem takenElsewhere_eq_zero {key : LotKey} {lot : Lot} (hsale : lot.sale = key.sale) :
    takenElsewhere key lot = 0 := if_neg fun h => h.2 hsale

/-- A lot with a sale does not count in what other sales take. -/
theorem elsewhere_put (key : LotKey) {lot : Lot} (hsale : lot.sale = key.sale) :
    lotSum { l with lots := l.lots.put lot } (takenElsewhere key) = l.lotSum (takenElsewhere key) :=
  lotSum_put_of_eq_zero (takenElsewhere_eq_zero hsale) fun _ hx =>
    takenElsewhere_eq_zero ((congrArg LotKey.sale (key_of_lot hx)).trans hsale)

theorem elsewhere_erase (key : LotKey) {lot : LotKey} (hsale : lot.sale = key.sale) :
    lotSum { l with lots := l.lots.erase lot } (takenElsewhere key) = l.lotSum (takenElsewhere key) :=
  lotSum_erase_of_eq_zero fun _ hx =>
    takenElsewhere_eq_zero ((congrArg LotKey.sale (key_of_lot hx)).trans hsale)

/-- A lot that is linked, on the grid and not negative may be put among such lots. -/
theorem Tidy.put (h : l.Tidy) {lot : Lot}
    (hlinked : (∃ e, l.entry? lot.purchase = some e) ∧ ∃ e, l.entry? lot.sale = some e)
    (hdvd : (tenTo 12 : Int) ∣ lot.purchaseShares.units ∧ (tenTo 12 : Int) ∣ lot.adjustedShares.units)
    (hnonneg : 0 ≤ lot.purchaseShares.units ∧ 0 ≤ lot.adjustedShares.units) :
    Tidy { l with lots := l.lots.put lot } where
  linked x hx := by
    rcases Register.eq_or_mem_of_mem_put hx with rfl | hx
    · exact hlinked
    · exact h.linked x hx
  dvd x hx := by
    rcases Register.eq_or_mem_of_mem_put hx with rfl | hx
    · exact hdvd
    · exact h.dvd x hx
  nonneg x hx := by
    rcases Register.eq_or_mem_of_mem_put hx with rfl | hx
    · exact hnonneg
    · exact h.nonneg x hx

/-- A lot matters only for what its own purchase has given away and for how far its own sale is
covered, so these two sums are all that has to be looked at when it is put. -/
theorem Stocked.put (h : l.Stocked) {lot : Lot} (htidy : Tidy { l with lots := l.lots.put lot })
    (htaken : ∀ e, l.entry? lot.purchase = some e →
      lotSum { l with lots := l.lots.put lot } (taken lot.purchase) ≤ Max.max e.quantityOrZero.units 0)
    (hcovered : ∀ e, l.entry? lot.sale = some e →
      lotSum { l with lots := l.lots.put lot } (covered lot.sale) ≤
        Max.max (-e.quantityOrZero.units) 0) :
    Stocked { l with lots := l.lots.put lot } where
  toTidy := htidy
  taken_le id e he := by
    by_cases hid : lot.purchase = id
    · subst hid
      exact htaken e he
    · -- of another purchase nothing is taken, neither by the lot nor by the one that it is put for
      have hput := lotSum_put_of_eq_zero (l := l) (f := taken id) (if_neg hid) fun x hx =>
        if_neg fun heq => hid ((congrArg LotKey.purchase (key_of_lot hx)).symm.trans heq)
      rw [hput]
      exact h.taken_le id e he
  covered_le id e he := by
    by_cases hid : lot.sale = id
    · subst hid
      exact hcovered e he
    · have hput := lotSum_put_of_eq_zero (l := l) (f := covered id) (if_neg hid) fun x hx =>
        if_neg fun heq => hid ((congrArg LotKey.sale (key_of_lot hx)).symm.trans heq)
      rw [hput]
      exact h.covered_le id e he

/-- Taking a lot out only gives shares back. -/
theorem Stocked.erase (h : l.Stocked) (key : LotKey) : Stocked { l with lots := l.lots.erase key } where
  linked lot hlot := h.linked lot (Register.mem_of_mem_erase hlot)
  dvd lot hlot := h.dvd lot (Register.mem_of_mem_erase hlot)
  nonneg lot hlot := h.nonneg lot (Register.mem_of_mem_erase hlot)
  taken_le id e he := (lotSum_erase_le (h.taken_nonneg id) key).trans (h.taken_le id e he)
  covered_le id e he := (lotSum_erase_le (h.covered_nonneg id) key).trans (h.covered_le id e he)

/-! ## What a lot takes when it grows -/

/--
When a contract may be broken: where a share becomes more than a trillion shares it may not be backed,
where more than ten million become one it may not be found again, and for the stock it depends on the
lot. No more than is asked for is ever allocated.

The ratios are those of the ledger itself and so do not change while it is matched; which lots are meant
by `stock` depends on what was taken so far, and is said by each theorem.
-/
def MayBreak (l : Ledger) (stock : LotKey → Prop) : LotContract → Prop
  | .backing key => ∃ r, l.splitRatio (l.lotContext key) = .ok r ∧ (trillion : Int) < r.sharesOut.units
  | .roundTrip key _ _ =>
      ∃ r, l.splitRatio (l.lotContext key) = .ok r ∧ tenTo 7 * r.sharesOut.units < r.sharesIn.units
  | .allocation => False
  | .stock key => stock key

theorem MayBreak.imp {stock stock' : LotKey → Prop} (himp : ∀ key, stock key → stock' key)
    {contract : LotContract} (h : l.MayBreak stock contract) : l.MayBreak stock' contract := by
  cases contract with
  | backing key => exact h
  | roundTrip key found shares => exact h
  | allocation => exact h
  | stock key => exact himp key h

/-- The splits are the same while only lots change, so a reason that is found later in a run is one in the
ledger that it began with. -/
theorem SameButLots.mayBreak (hsame : l.SameButLots l₁) {stock : LotKey → Prop} {contract : LotContract}
    (h : l₁.MayBreak stock contract) : l.MayBreak stock contract := by
  rw [hsame] at h
  cases contract <;> exact h

namespace Growth

variable {key : LotKey} {demand : Decimal} (g : Growth l key demand)

theorem grown_sale : g.grown.sale = key.sale := congrArg LotKey.sale g.grown_key

theorem grown_purchase : g.grown.purchase = key.purchase := congrArg LotKey.purchase g.grown_key

/-- After a lot has grown, its purchase has given what other sales took and what the lot takes now. What
the lot took before does not matter: it was given back first. -/
theorem lotSum_taken_after : g.after.lotSum (Ledger.taken key.purchase) =
    l.lotSum (takenElsewhere key) + g.purchaseShares.units := by
  have htaken := g.after.lotSum_taken key
  rw [g.lot?_after, if_pos rfl] at htaken
  rw [htaken, show g.after.lotSum (takenElsewhere key) = _ from elsewhere_put key g.grown_sale]
  rfl

/-- After a lot has grown, its sale is covered as far as it was, and by what the lot took more. -/
theorem lotSum_covered_after
    (hunits : g.adjustedShares.units = g.lot.adjustedShares.units + g.taken.units) :
    g.after.lotSum (covered key.sale) = l.lotSum (covered key.sale) + g.taken.units := by
  have hput : g.after.lotSum (covered key.sale) +
      ((l.lot? g.grown.key).map (covered key.sale)).getD 0 =
        l.lotSum (covered key.sale) + covered key.sale g.grown := l.lotSum_put _ g.grown
  have hgrown : covered key.sale g.grown = g.adjustedShares.units := if_pos g.grown_sale
  have hlot : covered key.sale g.lot = g.lot.adjustedShares.units := if_pos g.grown_sale
  rw [g.grown_key, g.lot?_eq, Option.map_some, Option.getD_some, hgrown, hlot] at hput
  omega

namespace Measured

variable {g} {e : Entry} {r : SplitRatio} {m n : Nat} (hg : g.Measured e m n) (h : l.Stocked)
  (hterms : l.Terms account) (he : l.entry? key.purchase = some e) (hconverts : l.Converts key e r m n)
include hg h hterms he hconverts

/-- What a lot takes of its purchase is at most what the purchase has. -/
theorem purchaseShares_bounds : (tenTo 12 : Int) ∣ g.purchaseShares.units ∧
    0 ≤ g.purchaseShares.units ∧ g.purchaseShares.units ≤ e.quantityOrZero.units := by
  obtain ⟨hdvd, hnonneg, htakes⟩ := hg.purchaseShares_spec h hterms he hconverts
  obtain ⟨-, -, hleft⟩ := h.leftFor_bounds hterms he
  exact ⟨hdvd, hnonneg, htakes _ hleft (.inr (hterms.scaled.entry key.purchase e he))⟩

/-- A lot that has grown is as tidy as all others: both of its share counts come in sixteen places. -/
theorem tidy_after : g.after.Tidy := by
  obtain ⟨hdvd, hnonneg, -⟩ := hg.purchaseShares_bounds h hterms he hconverts
  obtain ⟨hgrid, hpos⟩ := hg.shares_bounds h hterms
  refine h.toTidy.put ?_ ⟨hdvd, hgrid⟩ ⟨hnonneg, hpos.le⟩
  rw [g.grown_purchase, g.grown_sale]
  exact ⟨⟨e, he⟩, (h.exists_entries g.lot?_eq).2⟩

/-- What the purchase has left after a lot has grown is exact, whether it is in stock or not. The check
of the stock reads this number, so it has to be known before it is known that the check is passed. -/
theorem left_after : ∃ left, g.after.remainingForAccount key.purchase g.sale.account = .ok left ∧
    left.units = l.leftFor key e - g.purchaseShares.units := by
  have hafter : g.after.Terms account := hterms.of_changed (.single (.resizeLot g.lot?_key _ _)) rfl
  have hsale : g.sale ∈ g.after.transactions.items := by
    obtain ⟨_, _, -, -, hfound⟩ := owner?_eq_some.mp g.owner?_eq
    exact (Register.get?_eq_some_iff.mp hfound).1
  obtain ⟨-, -, hle⟩ := hg.purchaseShares_bounds h hterms he hconverts
  have helsewhere := h.elsewhere_le key
  have htaken := h.taken_le key.purchase e he
  have hquantity := hterms.quantity_le he
  have hsum := g.lotSum_taken_after
  obtain ⟨left, hleft, hunits⟩ := (hg.tidy_after h hterms he hconverts).remainingShares_eq_ok hafter
    (e := e) he (by omega)
  rw [← hafter.remainingForAccount_eq (e := e) he hsale] at hleft
  refine ⟨left, hleft, ?_⟩
  unfold leftFor
  omega

/-- The shares of a lot that grows are those that it takes to back it, unless the splits are too large. -/
theorem derive_comesOut (stock : LotKey → Prop) : ComesOut (l.lotPurchaseShares key g.adjustedShares)
    (fun _ => True) (l.MayBreak stock) := by
  obtain ⟨hgrid, -⟩ := hg.shares_bounds h hterms
  obtain ⟨hsmall, -⟩ := hg.shares_le h hterms he hconverts
  obtain ⟨-, hnonneg, hle⟩ := hg.purchaseShares_bounds h hterms he hconverts
  have hproduct : g.purchaseShares.units.natAbs * m ≤ trillion :=
    (Nat.mul_le_mul_right m (by omega)).trans hconverts.quantity_le
  have hunit : (0 : Int) < unit := by decide
  -- deriving comes to the shares that were expected, or to one of two contracts, each with its reason
  rcases lotPurchaseShares_cases hconverts.ratio hconverts.sharesOut hconverts.sharesIn hconverts.out_pos
      hconverts.in_pos hconverts.in_le (hterms.places_le_eight key) g.purchaseShares_eq hgrid hsmall
      hproduct with hok | ⟨hm, herror⟩ | ⟨hmn, found, herror⟩
  · exact comesOut_of_eq_ok hok trivial
  · refine .inr ⟨_, herror, r, hconverts.ratio, ?_⟩
    rw [hconverts.sharesOut]
    exact Int.mul_lt_mul_of_pos_right (by exact_mod_cast hm : ((tenTo 12 : Nat) : Int) < m) hunit
  · refine .inr ⟨_, herror, r, hconverts.ratio, ?_⟩
    rw [hconverts.sharesOut, hconverts.sharesIn, ← Int.mul_assoc]
    exact Int.mul_lt_mul_of_pos_right (by exact_mod_cast hmn) hunit

/--
A lot that grows keeps its purchase in stock and covers what it takes, or it stops at a contract. It does
not stop at the stock where its sale finds the purchase in whole.

The call is followed step by step: the shares are derived (`derive_comesOut`), what is left is read off
(`left_after`) and checked, and what was taken goes off the demand. That the check is passed is not a
hypothesis anywhere: it is passed or not, and where it is not the purchase was not found in whole.
-/
theorem comesOut (hcovered : ∀ e, l.entry? key.sale = some e →
      l.lotSum (covered key.sale) + demand.units ≤ Max.max (-e.quantityOrZero.units) 0)
    (hdemand : (tenTo 12 : Int) ∣ demand.units) :
    ComesOut (l.allocateShares key demand)
      (fun r => r.2 = g.after ∧ r.2.Stocked ∧ r.1.units = demand.units - g.taken.units)
      (l.MayBreak fun k => k = key ∧ ¬ l.FoundWhole key) := by
  obtain ⟨-, hpos⟩ := hg.shares_le h hterms he hconverts
  obtain ⟨hdvd, -, htakes⟩ := hg.purchaseShares_spec h hterms he hconverts
  obtain ⟨hgrid, -, hquantity⟩ := h.leftFor_bounds hterms he
  obtain ⟨left, hleft, hleftUnits⟩ := hg.left_after h hterms he hconverts
  have htaken := h.taken_le key.purchase e he
  have hremaining := hg.remaining
  rw [g.allocateShares_eq]
  refine (hg.derive_comesOut h hterms he hconverts _).bind fun _ _ => ?_
  rw [hleft]
  show ComesOut (do LotContract.check (.stock key) _; _) _ _
  -- the purchase has something left, so that the check is whether it still has
  have hstock : g.remaining.min 0 ≤ left ↔ 0 ≤ left.units := by
    show (g.remaining.min 0).units ≤ left.units ↔ _
    rw [units_min, units_zero]
    omega
  have hcheck : ComesOut (LotContract.check (.stock key) (g.remaining.min 0 ≤ left))
      (fun _ => g.remaining.min 0 ≤ left) (l.MayBreak fun k => k = key ∧ ¬ l.FoundWhole key) := by
    refine comesOut_check fun hbroken => ⟨rfl, fun hwhole => hbroken (hstock.mpr ?_)⟩
    have hfound : l.Straight key ∨ l.leastShares ∣ l.leftFor key e :=
      hwhole.imp_right fun hdvd => Int.dvd_sub (hterms.scaled.entry key.purchase e he) hdvd
    have := htakes _ (Int.le_refl _) hfound
    omega
  refine hcheck.bind fun _ hkept => ?_
  have hkept := hstock.mp hkept
  -- the rest of the demand is exact: it is on the grid, and the sale is not covered further than it goes
  have hrest : Representable (demand.units - g.taken.units) := by
    obtain ⟨-, sale, hsale⟩ := h.exists_entries g.lot?_eq
    have hsold := hterms.quantity_le hsale
    have hlacking := hcovered sale hsale
    have hsum := lotSum_nonneg (h.covered_nonneg key.sale)
    have htaken_pos : 0 < g.taken.units := g.taken_pos
    have hle := hg.taken_le
    exact representable_of_dvd (Int.dvd_sub hdemand hg.taken_dvd) (by omega)
  obtain ⟨rest, hsub, hunits⟩ := sub_exact hrest
  rw [hsub]
  refine comesOut_of_eq_ok rfl ⟨rfl, ?_, hunits⟩
  refine h.put (hg.tidy_after h hterms he hconverts) ?_ ?_
  · rw [g.grown_purchase]
    intro e' he'
    obtain rfl := Option.some.inj (he.symm.trans he')
    have hafter := g.lotSum_taken_after
    show g.after.lotSum (Ledger.taken key.purchase) ≤ _
    unfold leftFor at hleftUnits
    omega
  · rw [g.grown_sale]
    intro sale hsale
    have hlacking := hcovered sale hsale
    have hafter := g.lotSum_covered_after hg.shares
    have hle := hg.taken_le
    show g.after.lotSum (covered key.sale) ≤ _
    omega

end Measured

end Growth

/-! ## What matching a sale takes -/

/--
What matching keeps while it covers the demand of a sale: all purchases are in stock, what the sale is
covered by and still lacks is no more than it sells, and what other sales take of a purchase is what it
was at the start. By the last, a sale finds a purchase in whole now if it did at the start.
-/
structure Matching (account : AccountId) (start : Ledger) (sale : EntryId) (demand : Decimal) (l : Ledger) :
    Prop where
  terms : l.Terms account
  stocked : l.Stocked
  dvd : (tenTo 12 : Int) ∣ demand.units
  nonneg : 0 ≤ demand.units
  covered_le : ∀ e, l.entry? sale = some e →
    l.lotSum (covered sale) + demand.units ≤ Max.max (-e.quantityOrZero.units) 0
  same : start.SameButLots l
  elsewhere : ∀ purchase, l.lotSum (takenElsewhere ⟨purchase, sale⟩) =
    start.lotSum (takenElsewhere ⟨purchase, sale⟩)

namespace Matching

variable {sale purchase : EntryId} {candidates : List EntryId} {demand : Decimal}
  (h : Matching account start sale demand l)
include h

/-- A lot is made without shares, so nothing is taken and nothing is covered by it. -/
theorem insertLot (hinsert : l.insertLot ⟨purchase, sale⟩ = .ok l₁) :
    Matching account start sale demand l₁ := by
  have hchanged : Changed l l₁ := .single (.insertLot hinsert)
  obtain ⟨hpurchase, hsale, hnone, rfl⟩ := insertLot_eq_ok hinsert
  -- an empty lot where there was none counts for nothing
  have hsum : ∀ f : Lot → Int, f (.empty ⟨purchase, sale⟩) = 0 →
      lotSum { l with lots := l.lots.put (.empty ⟨purchase, sale⟩) } f = l.lotSum f := by
    intro f hf
    refine lotSum_put_of_eq_zero hf fun x hx => ?_
    cases hnone.symm.trans hx
  have hcovered := hsum (covered sale) (if_pos rfl)
  have htidy : Tidy { l with lots := l.lots.put (.empty ⟨purchase, sale⟩) } :=
    h.stocked.toTidy.put ⟨hpurchase, hsale⟩ ⟨Int.dvd_zero _, Int.dvd_zero _⟩
      ⟨Int.le_refl 0, Int.le_refl 0⟩
  refine ⟨h.terms.of_changed hchanged rfl, ?_, h.dvd, h.nonneg, ?_, h.same.trans rfl, ?_⟩
  · refine h.stocked.put htidy (fun e he => ?_) fun e he => ?_
    · show lotSum _ (taken purchase) ≤ _
      rw [hsum _ (if_pos rfl)]
      exact h.stocked.taken_le purchase e he
    · show lotSum _ (covered sale) ≤ _
      rw [hcovered]
      exact h.stocked.covered_le sale e he
  · intro e he
    rw [hcovered]
    exact h.covered_le e he
  · exact fun id => (elsewhere_put ⟨id, sale⟩ rfl).trans (h.elsewhere id)

/-- A lot that came to nothing is dropped again, which may leave the sale less covered than it was. -/
theorem erase (purchase : EntryId) : Matching account start sale demand
    { l with lots := l.lots.erase ⟨purchase, sale⟩ } where
  terms := h.terms.of_changed (.single (.dropLot l ⟨purchase, sale⟩)) rfl
  stocked := h.stocked.erase ⟨purchase, sale⟩
  dvd := h.dvd
  nonneg := h.nonneg
  covered_le e he := by
    have := lotSum_erase_le (h.stocked.covered_nonneg sale) ⟨purchase, sale⟩
    have := h.covered_le e he
    omega
  same := h.same.trans rfl
  elsewhere id := by
    have hsale : (⟨purchase, sale⟩ : LotKey).sale = sale := rfl
    exact (elsewhere_erase ⟨id, sale⟩ hsale).trans (h.elsewhere id)

/-- A sale finds a purchase as it did at the start. -/
theorem foundWhole_iff (purchase : EntryId) :
    l.FoundWhole ⟨purchase, sale⟩ ↔ start.FoundWhole ⟨purchase, sale⟩ := by
  unfold FoundWhole
  rw [h.elsewhere, h.same]
  exact Iff.rfl

/--
Whatever a lot comes to when it is offered the demand, matching may go on from there. Nothing happens if
there is no demand, no lot, no account of the sale, or no room in the lot; otherwise the lot grows, and
`Growth.Measured.comesOut` says what that comes to.
-/
theorem allocateShares (purchase : EntryId) : ComesOut (l.allocateShares ⟨purchase, sale⟩ demand)
    (fun r => Matching account start sale r.1 r.2)
    (start.MayBreak fun key => key = ⟨purchase, sale⟩ ∧ ¬ start.FoundWhole key) := by
  by_cases hdemand : demand ≤ 0
  · obtain rfl : demand = 0 := Decimal.ext_units (Int.le_antisymm hdemand h.nonneg)
    exact comesOut_of_eq_ok (by rw [Ledger.allocateShares, if_pos hdemand]) h
  cases hlot : l.lot? ⟨purchase, sale⟩ with
  | none => exact comesOut_of_eq_ok (a := (demand, l)) (by rw [Ledger.allocateShares, if_neg hdemand, hlot]) h
  | some lot =>
    cases hsale : l.owner? sale with
    | none =>
      exact comesOut_of_eq_ok (a := (demand, l))
        (by rw [Ledger.allocateShares, if_neg hdemand, hlot, hsale]) h
    | some t =>
      obtain ⟨⟨e, he⟩, seller, hseller⟩ := h.stocked.exists_entries hlot
      obtain ⟨r, m, n, hconverts⟩ := h.terms.exists_converts he hseller
      obtain ⟨g, hg⟩ := h.stocked.exists_headroom h.terms he hconverts hlot hsale
      replace hdemand : 0 < demand := Int.not_le.mp hdemand
      rcases Int.lt_or_le 0 g.room.units with hroom | hfull
      · obtain ⟨growth, hgrowth⟩ :=
          hg.exists_growth h.stocked h.terms he hconverts hroom hdemand h.dvd
        have hgrows := hgrowth.comesOut h.stocked h.terms he hconverts h.covered_le h.dvd
        refine (hgrows.of_result ?kept).weaken fun contract hbroken => h.same.mayBreak (hbroken.imp ?_)
        case kept =>
          rintro ⟨rest, l₁⟩ - ⟨rfl, hstocked, hunits⟩
          replace hunits : rest.units = demand.units - growth.taken.units := hunits
          have hle := hgrowth.taken_le
          refine ⟨h.terms.of_changed (.single (.resizeLot growth.lot?_key _ _)) rfl, hstocked, ?_,
            by show 0 ≤ rest.units; omega, fun e he => ?_, h.same.trans rfl, fun id => ?_⟩
          · show (tenTo 12 : Int) ∣ rest.units
            rw [hunits]
            exact Int.dvd_sub h.dvd hgrowth.taken_dvd
          · have hlacking := h.covered_le e he
            have hafter : growth.after.lotSum (covered sale) = l.lotSum (covered sale) + growth.taken.units :=
              growth.lotSum_covered_after hgrowth.shares
            show growth.after.lotSum (covered sale) + rest.units ≤ _
            omega
          · exact (elsewhere_put ⟨id, sale⟩ growth.grown_sale).trans (h.elsewhere id)
        rintro key ⟨rfl, hnot⟩
        exact ⟨rfl, mt (h.foundWhole_iff purchase).mpr hnot⟩
      · exact comesOut_of_eq_ok (g.allocateShares_of_full hdemand hfull) h

/-- Whatever candidates there are, matching keeps all purchases in stock, or it stops at a contract. The
induction over the candidates is `coverDemand_comesOut`, and `Matching` is what it carries along. -/
theorem coverDemand : ComesOut (l.coverDemand sale demand candidates) (fun r => r.2.Stocked)
    (start.MayBreak fun key => (key.sale = sale ∧ key.purchase ∈ candidates) ∧ ¬ start.FoundWhole key) := by
  have hgrow (id : EntryId) (hid : id ∈ candidates) (d : Decimal) (l : Ledger)
      (h : Matching account start sale d l) : ComesOut (l.allocateShares ⟨id, sale⟩ d)
        (fun r => Matching account start sale r.1 r.2) (start.MayBreak fun key =>
          (key.sale = sale ∧ key.purchase ∈ candidates) ∧ ¬ start.FoundWhole key) := by
    refine (h.allocateShares id).weaken fun _ hbroken => hbroken.imp ?_
    rintro key ⟨rfl, hnot⟩
    exact ⟨⟨rfl, hid⟩, hnot⟩
  have hcover := coverDemand_comesOut (P := Matching account start sale)
    (fun _ _ _ _ h hinsert => h.insertLot hinsert) hgrow (fun id _ _ h => h.erase id) h
  exact hcover.of_result fun _ _ ⟨_, h⟩ => h.stocked

end Matching

section Sales

variable (h : l.Stocked) (hterms : l.Terms account) (sale : EntryId)
include h hterms

/-- Matching a sale with any candidates keeps all purchases in stock, or it stops at a contract. -/
theorem Stocked.allocateLots (candidates : List EntryId) :
    ComesOut (l.allocateLots sale candidates) (fun r => r.2.Stocked)
      (l.MayBreak fun key => (key.sale = sale ∧ key.purchase ∈ candidates) ∧ ¬ l.FoundWhole key) := by
  rw [Ledger.allocateLots]
  cases he : l.entry? sale with
  | none => exact comesOut_of_eq_ok rfl h
  | some e =>
    -- what the sale still lacks is computed without rounding, and is where `Matching` begins
    obtain ⟨d, hd, hunits⟩ := h.coveredShares_eq_ok hterms he
    have hcovered := h.covered_le sale e he
    have hnonneg := lotSum_nonneg (h.covered_nonneg sale)
    have hquantity := hterms.quantity_le he
    have hgrid : (tenTo 12 : Int) ∣ -e.quantityOrZero.units - d.units := by
      rw [hunits]
      exact Int.dvd_sub (Int.dvd_neg.mpr (hterms.dvd_quantity he)) (h.dvd_covered sale)
    obtain ⟨rest, hrest, hrestUnits⟩ := sub_exact (a := -e.quantityOrZero) (b := d)
      (representable_of_dvd (by rwa [units_neg]) (by rw [units_neg]; omega))
    rw [units_neg] at hrestUnits
    have hdemand : (rest.max 0).units = Max.max rest.units 0 := units_max rest 0
    simp only [hd, hrest, bind, Except.bind]
    refine Matching.coverDemand ⟨hterms, h, ?_, by omega, fun e' he' => ?_, .refl l, fun _ => rfl⟩
    · rw [hdemand]
      rcases Int.le_total rest.units 0 with hle | hle
      · rw [Int.max_eq_right hle]
        exact Int.dvd_zero _
      · rw [Int.max_eq_left hle, hrestUnits]
        exact hgrid
    · obtain rfl := Option.some.inj (he.symm.trans he')
      omega

/-- What each purchase has left and costs can be told, so that they are found and sorted. -/
theorem Stocked.exists_sorted (account' : AccountId) (security : SecurityId) (upTo : Date)
    (strategy : LotStrategy) : ∃ purchases sorted,
      l.unsoldPurchases account' security upTo = .ok purchases ∧
        strategy.sort l purchases = .ok sorted := by
  have hpurchases : ∃ purchases, l.unsoldPurchases account' security upTo = .ok purchases := by
    unfold unsoldPurchases
    generalize hcandidates : List.filterMap _ l.entries.items = candidates
    have hknown : ∀ c ∈ candidates, ∃ b, (do
        let left ← l.remainingShares c.2
        return decide (0 < left)) = Except.ok (ε := ArithmeticFault) b := by
      intro c hc
      rw [← hcandidates] at hc
      simp only [List.mem_filterMap, Option.ite_none_right_eq_some, Option.bind_eq_some_iff,
        Option.some.injEq] at hc
      obtain ⟨e, he, -, t, -, -, rfl⟩ := hc
      have he : l.entry? e.id = some e := Register.mem_items_iff.mp he
      obtain ⟨d, hd, -⟩ := h.remainingShares_eq_ok hterms he
      refine ⟨decide (0 < d), ?_⟩
      show (do let left ← l.remainingShares e.id; _) = _
      rw [hd]
      rfl
    obtain ⟨unsold, hunsold⟩ := exists_filterM_eq_ok hknown
    show ∃ purchases, (do let unsold ← candidates.filterM _; _) = Except.ok purchases
    rw [hunsold]
    exact ⟨_, rfl⟩
  obtain ⟨purchases, hpurchases⟩ := hpurchases
  have hkeys : ∀ p ∈ purchases, ∃ k, strategy.key l p = .ok k := by
    refine fun p hp => LotStrategy.exists_key fun _ => ?_
    obtain ⟨e, he, -⟩ := (mem_unsoldPurchases hpurchases).mp hp
    obtain rfl := id_of_entry he
    obtain ⟨price, hprice⟩ := Option.isSome_iff_exists.mp
      (hterms.modest.price e (Register.mem_items_iff.mpr he))
    exact ⟨price, toOption_eq_some_iff.mp hprice⟩
  obtain ⟨sorted, hsorted⟩ := LotStrategy.exists_sort_eq_ok hkeys
  exact ⟨purchases, sorted, hpurchases, hsorted⟩

/-- A strategy finds its purchases and sorts them without a fault, and is a matching with them then. Any
purchase may be among them, so the reasons to stop go without candidates. -/
theorem Stocked.allocateByStrategy (strategy : LotStrategy) :
    ComesOut (l.allocateByStrategy sale strategy) (fun r => r.2.Stocked)
      (l.MayBreak fun key => key.sale = sale ∧ ¬ l.FoundWhole key) := by
  cases hseller : l.owner? sale with
  | none =>
    exact comesOut_of_eq_ok (a := (.error (.detachedEntry sale), l))
      (by rw [Ledger.allocateByStrategy, hseller]) h
  | some t =>
    cases hsecurity : t.security with
    | none =>
      exact comesOut_of_eq_ok (a := (.error (.missingSecurity t.id), l))
        (by simp only [Ledger.allocateByStrategy, hseller, hsecurity]) h
    | some security =>
      obtain ⟨purchases, sorted, hpurchases, hsorted⟩ :=
        h.exists_sorted hterms t.account security t.date strategy
      rw [allocateByStrategy_eq hseller hsecurity hpurchases hsorted]
      exact (h.allocateLots hterms sale sorted).weaken fun _ hbroken =>
        hbroken.imp fun _ hkey => ⟨hkey.1.1, hkey.2⟩

end Sales

/-! ## Matching sales one after another -/

/-- Whether an edit matches a sale with purchases. -/
def Edit.isMatching : Edit → Bool
  | .allocateLots _ _ | .allocateByStrategy _ _ => true
  | _ => false

/-- The sale that an edit matches with a purchase, if that may be among its candidates. -/
def Edit.saleOf? (purchase : EntryId) : Edit → Option EntryId
  | .allocateLots sale candidates => if purchase ∈ candidates then some sale else none
  | .allocateByStrategy sale _ => some sale
  | _ => none

/-- Whether the sale that an edit matches with a purchase, if it does, finds it in whole. -/
def FindsWhole (purchase : EntryId) (l : Ledger) (edit : Edit) : Prop :=
  ∀ sale ∈ edit.saleOf? purchase, l.FoundWhole ⟨purchase, sale⟩

instance (purchase : EntryId) (l : Ledger) (edit : Edit) : Decidable (FindsWhole purchase l edit) :=
  inferInstanceAs (Decidable (∀ sale ∈ edit.saleOf? purchase, l.FoundWhole ⟨purchase, sale⟩))

/-- One matching keeps all purchases in stock, or it stops at a contract. -/
theorem Stocked.advance (h : l.Stocked) (hterms : l.Terms account) {edit : Edit}
    (hmatching : edit.isMatching) : ComesOut (l.advance edit)
      (fun l₁ => l₁.Stocked ∧ l₁.Terms account ∧ l.SameButLots l₁)
      (l.MayBreak fun key => ¬ FindsWhole key.purchase l edit) := by
  -- whatever it says of the matching, an edit leaves the ledger that it came to
  have hadvance {x : Except ArithmeticFault (Except LedgerError Allocation × Ledger)}
      {broken : LotContract → Prop} (hx : ComesOut x (fun r => r.2.Stocked) broken)
      (hmatched : ∀ r, x = .ok r → Matched l r.2 r.1) :
      ComesOut (Prod.snd <$> matchAftermath <$> x)
        (fun l₁ => l₁.Stocked ∧ l₁.Terms account ∧ l.SameButLots l₁) broken := by
    have hkept : ComesOut (matchAftermath <$> x)
        (fun a => a.2.Stocked ∧ a.2.Terms account ∧ l.SameButLots a.2) broken := by
      refine (hx.of_result fun r hr hstocked => And.intro (hmatched r hr) hstocked).map ?_
      rintro r ⟨hmatched, hstocked⟩
      have hafter : r.2 = (matchAftermath r).2 := matchAftermath_snd rfl
      rw [← hafter]
      exact ⟨hstocked, hterms.of_changed hmatched.changed hmatched.same, hmatched.same⟩
    exact hkept.map fun _ ha => ha
  cases edit with
  | allocateLots sale candidates =>
    refine hadvance ((h.allocateLots hterms sale candidates).weaken fun _ hbroken => hbroken.imp ?_)
      fun _ => allocateLots_matched
    rintro ⟨purchase, sold⟩ ⟨⟨rfl, hpurchase⟩, hnot⟩ hfinds
    exact hnot (hfinds sold (if_pos hpurchase))
  | allocateByStrategy sale strategy =>
    refine hadvance ((h.allocateByStrategy hterms sale strategy).weaken fun _ hbroken => hbroken.imp ?_)
      fun _ => allocateByStrategy_matched
    rintro ⟨purchase, sold⟩ ⟨rfl, hnot⟩ hfinds
    exact hnot (hfinds sold rfl)
  | _ => cases hmatching

/-- So do matchings one after another. The induction is on the edits, for all ledgers at once, and a
purchase is found in whole throughout if it is now and is throughout the rest. -/
theorem Stocked.performAll {edits : List Edit} (hmatching : ∀ edit ∈ edits, edit.isMatching)
    (h : l.Stocked) (hterms : l.Terms account) : ComesOut (l.performAll edits)
      (fun l₁ => l₁.Stocked ∧ l₁.Terms account ∧ l.SameButLots l₁)
      (l.MayBreak fun key => ¬ Throughout Ledger.advance (FindsWhole key.purchase) l edits) := by
  induction edits generalizing l with
  | nil => exact comesOut_of_eq_ok rfl ⟨h, hterms, .refl l⟩
  | cons edit edits ih =>
    rw [Ledger.performAll, List.foldlM_cons]
    have hfirst := h.advance hterms (hmatching edit List.mem_cons_self)
    refine ((hfirst.of_result fun l₂ hl₂ hkept => And.intro hl₂ hkept).weaken ?_).bind ?_
    · exact fun _ hbroken => hbroken.imp fun key hnot hthroughout => hnot hthroughout.1
    · rintro l₂ ⟨hl₂, hstocked, hterms₂, hsame⟩
      have hrest := ih (fun e he => hmatching e (List.mem_cons_of_mem edit he)) hstocked hterms₂
      refine (hrest.of_result fun l₁ _ hkept => ⟨hkept.1, hkept.2.1, hsame.trans hkept.2.2⟩).weaken
        fun _ hbroken => hsame.mayBreak (hbroken.imp ?_)
      exact fun key hnot hthroughout => hnot (hthroughout.of_cons hl₂).2

/-- Without lots, nothing was taken of any purchase yet. -/
theorem stocked_of_no_lots (h : l.lots.items = []) : l.Stocked := by
  have hnone : ∀ lot, lot ∉ l.lots.items := by
    rw [h]
    exact fun _ => List.not_mem_nil
  have hsum : ∀ f, l.lotSum f = 0 := by
    intro f
    rw [lotSum, h]
    rfl
  refine ⟨⟨fun lot hlot => (hnone lot hlot).elim, fun lot hlot => (hnone lot hlot).elim,
    fun lot hlot => (hnone lot hlot).elim⟩, fun id e _ => ?_, fun id e _ => ?_⟩
  · rw [hsum]
    omega
  · rw [hsum]
    omega

/--
Matching sales one after another comes through, and no purchase has less than nothing left; or it stops
at a contract, and only for a reason. It does not stop at the stock of a purchase that every matching
finds in whole.
-/
theorem matching_keeps_stock {edits : List Edit} (hreachable : l.Reachable)
    (hplaces : l.settings.sharePlaces ≤ Settings.maxSharePlaces) (hlots : l.lots.items = [])
    (haccount : ∀ t ∈ l.transactions.items, t.account = account) (hwhole : l.WholeSplits)
    (hmodest : l.Modest) (hmatching : ∀ edit ∈ edits, edit.isMatching) :
    ComesOut (l.performAll edits)
      (fun l₁ => ∀ e ∈ l.entries.items, 0 ≤ e.quantityOrZero → ∃ d, l₁.remainingShares e.id = .ok d ∧
        d.units = e.quantityOrZero.units - l₁.lotSum (taken e.id) ∧ 0 ≤ d)
      (l.MayBreak fun key => ¬ Throughout advance (FindsWhole key.purchase) l edits) := by
  have hterms : l.Terms account :=
    ⟨hreachable.sound, hreachable.scaled, hplaces, haccount, hwhole, hmodest⟩
  refine (Stocked.performAll hmatching (stocked_of_no_lots hlots) hterms).of_result ?_
  rintro l₁ - ⟨hstocked, hterms₁, hsame⟩ e he hquantity
  have he₁ : l₁.entry? e.id = some e := by
    rw [hsame]
    exact Register.mem_items_iff.mp he
  obtain ⟨d, hd, hunits⟩ := hstocked.remainingShares_eq_ok hterms₁ he₁
  have htaken := hstocked.taken_le e.id e he₁
  have hmax : Max.max e.quantityOrZero.units 0 = e.quantityOrZero.units := Int.max_eq_left hquantity
  refine ⟨d, hd, hunits, ?_⟩
  show 0 ≤ d.units
  omega

/-- Two purchases and two sales of a security with two splits, two for three and three for one. -/
def splitTwice : List Edit :=
  [.addSecurity "S", .addSplit ⟨1⟩ ⟨.june 19, ⟨.whole 2, .whole 3⟩⟩,
    .addSplit ⟨1⟩ ⟨.june 22, ⟨.whole 3, 1⟩⟩,
    .addTransaction ⟨7⟩ (.june 18) (some ⟨1⟩), .addEntry ⟨2⟩ none (some 1) none,
    .addTransaction ⟨7⟩ (.june 20) (some ⟨1⟩), .addEntry ⟨4⟩ none (some 1) none,
    .addTransaction ⟨7⟩ (.june 21) (some ⟨1⟩), .addEntry ⟨6⟩ none (some (-1)) none,
    .addTransaction ⟨7⟩ (.june 23) (some ⟨1⟩), .addEntry ⟨8⟩ none (some (-.whole 5)) none]

/-- The later sale is matched with the later purchase, the earlier with the earlier, and then the later
again with what there is. One matching is refused. -/
def matchedInWhole : List Edit :=
  [.allocateLots ⟨9⟩ [⟨5⟩], .allocateLots ⟨99⟩ [⟨3⟩], .allocateLots ⟨7⟩ [⟨3⟩],
    .allocateByStrategy ⟨9⟩ .firstIn]

/-- Both sales come through, since every purchase is found in whole. -/
theorem matching_keeps_stock_inWhole :
    ∃ (before after : Ledger) (e : Entry), before.Reachable ∧ before.entry? ⟨3⟩ = some e ∧
      before.performAll matchedInWhole = .ok after ∧ ∃ d : Decimal,
        after.remainingShares e.id = .ok d ∧
        d.units = e.quantityOrZero.units - after.lotSum (taken e.id) ∧ 0 ≤ d := by
  have hcheck : (((Ledger.new .standard).performAll splitTwice).toOption.any fun before =>
      (before.performAll matchedInWhole).toOption.any fun after => (before.entry? ⟨3⟩).any fun e =>
        before.settings.sharePlaces ≤ Settings.maxSharePlaces ∧ before.lots.items = [] ∧
          (∀ t ∈ before.transactions.items, t.account = ⟨7⟩) ∧ before.WholeSplits ∧
          before.Modest ∧ (∀ edit ∈ matchedInWhole, edit.isMatching) ∧
          e ∈ before.entries.items ∧ 0 ≤ e.quantityOrZero) = true := by
    decide +kernel
  obtain ⟨before, hbefore, hcheck⟩ := exists_ok_of_any hcheck
  obtain ⟨after, hafter, hcheck⟩ := exists_ok_of_any hcheck
  obtain ⟨e, he, hcheck⟩ := (Option.any_eq_true _ _).mp hcheck
  obtain ⟨hplaces, hlots, haccount, hwhole, hmodest, hmatching, hmem, hquantity⟩ :=
    of_decide_eq_true hcheck
  have hreachable := (Reachable.new .standard).performAll hbefore
  rcases matching_keeps_stock hreachable hplaces hlots haccount hwhole hmodest hmatching with
    ⟨after', hafter', hstock⟩ | ⟨contract, herror, -⟩
  · obtain rfl := Except.ok.inj (hafter.symm.trans hafter')
    exact ⟨before, after, e, hreachable, he, hafter, hstock e hmem hquantity⟩
  · cases hafter.symm.trans herror

/-- As many shares as the later purchase would give the later sale. -/
def roundedUp : Decimal := .ofMantissa 19999999999999998 16 (by decide)

/--
A purchase would be oversold: the earlier sale takes a third of the later purchase, to sixteen places,
and what the later sale takes of the rest is rounded up past it. So the second matching stops, although
each is of a sale with purchases that have shares left. The lot that it stops at would leave the purchase
with less than nothing.
-/
theorem exists_oversold :
    ∃ (before once left : Ledger) (e : Entry), before.Reachable ∧
      before.settings.sharePlaces ≤ Settings.maxSharePlaces ∧ before.lots.items = [] ∧
      (∀ t ∈ before.transactions.items, t.account = ⟨7⟩) ∧ before.WholeSplits ∧ before.Modest ∧
      before.entry? ⟨5⟩ = some e ∧ 0 ≤ e.quantityOrZero ∧
      before.performAll [.allocateLots ⟨7⟩ [⟨3⟩, ⟨5⟩]] = .ok once ∧
      before.performAll [.allocateLots ⟨7⟩ [⟨3⟩, ⟨5⟩], .allocateLots ⟨9⟩ [⟨5⟩]] =
        .error (.broken (.stock ⟨⟨5⟩, ⟨9⟩⟩)) ∧
      once.performAll [.insertLot ⟨⟨5⟩, ⟨9⟩⟩, .setLotShares ⟨⟨5⟩, ⟨9⟩⟩ roundedUp] = .ok left ∧
      left.remainingShares ⟨5⟩ = .ok (.ofMantissa (-3333333334) 16 (by decide)) := by
  have hcheck : (((Ledger.new .standard).performAll splitTwice).toOption.any fun before =>
      (before.performAll [.allocateLots ⟨7⟩ [⟨3⟩, ⟨5⟩]]).toOption.any fun once =>
        (once.performAll [.insertLot ⟨⟨5⟩, ⟨9⟩⟩, .setLotShares ⟨⟨5⟩, ⟨9⟩⟩ roundedUp]).toOption.any
          fun left => (before.entry? ⟨5⟩).any fun e =>
            before.settings.sharePlaces ≤ Settings.maxSharePlaces ∧ before.lots.items = [] ∧
              (∀ t ∈ before.transactions.items, t.account = ⟨7⟩) ∧ before.WholeSplits ∧
              before.Modest ∧ 0 ≤ e.quantityOrZero ∧
              before.performAll [.allocateLots ⟨7⟩ [⟨3⟩, ⟨5⟩], .allocateLots ⟨9⟩ [⟨5⟩]] =
                .error (.broken (.stock ⟨⟨5⟩, ⟨9⟩⟩)) ∧
              left.remainingShares ⟨5⟩ = .ok (.ofMantissa (-3333333334) 16 (by decide))) = true := by
    decide +kernel
  obtain ⟨before, hbefore, hcheck⟩ := exists_ok_of_any hcheck
  obtain ⟨once, honce, hcheck⟩ := exists_ok_of_any hcheck
  obtain ⟨left, hleft, hcheck⟩ := exists_ok_of_any hcheck
  obtain ⟨e, he, hcheck⟩ := (Option.any_eq_true _ _).mp hcheck
  obtain ⟨hplaces, hlots, haccount, hwhole, hmodest, hquantity, hstops, hremaining⟩ :=
    of_decide_eq_true hcheck
  exact ⟨before, once, left, e, (Reachable.new .standard).performAll hbefore, hplaces, hlots, haccount,
    hwhole, hmodest, he, hquantity, honce, hstops, hleft, hremaining⟩

end Lotbook.Ledger
