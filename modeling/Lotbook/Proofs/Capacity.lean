/-
# Lotbook.Proofs.Capacity -- what purchases have and what lots take of it

As long as no number is too large and splits are in whole numbers, all that is computed when a lot grows
has at most sixteen places and is exact, but for what the splits do. So nothing overflows on the way, and
how far a lot may grow is what the other sales leave of its purchase, as far as the splits let it
(`Ledger.Stocked.exists_headroom`). Capacity is rounded down and consumption is rounded up, so that a lot
never takes more than any number of shares that its purchase can give as a whole, at the places that shares
are kept at (`Ledger.Growth.Measured.purchaseShares_spec`).
-/
import Lotbook.Proofs.Frames
import Lotbook.Proofs.LotContracts
import Mathlib.Algebra.Order.BigOperators.Group.List

namespace Lotbook

open Decimal

/-! ## Bounded sums -/

/-- The sums of a scan over terms that are not negative lie between where it starts and where it ends. -/
theorem Decimal.bounds_of_mem_scanl {terms : List Decimal}
    (hgrid : ∀ t ∈ terms, (tenTo 12 : Int) ∣ t.units) (hnonneg : ∀ t ∈ terms, 0 ≤ t.units) {a u : Int}
    (ha : (tenTo 12 : Int) ∣ a) (hu : u ∈ (terms.map units).scanl (· + ·) a) :
    (tenTo 12 : Int) ∣ u ∧ a ≤ u ∧ u ≤ a + (terms.map units).sum := by
  induction terms generalizing a with
  | nil =>
    obtain rfl : u = a := by simpa using hu
    exact ⟨ha, Int.le_refl _, by simp⟩
  | cons t terms ih =>
    have ht := hnonneg t List.mem_cons_self
    have hrest : 0 ≤ (terms.map units).sum := by
      refine List.sum_nonneg fun v hv => ?_
      obtain ⟨x, hx, rfl⟩ := List.mem_map.mp hv
      exact hnonneg x (List.mem_cons_of_mem t hx)
    rw [List.map_cons, List.scanl_cons, List.mem_cons] at hu
    rw [List.map_cons, List.sum_cons]
    rcases hu with rfl | hu
    · exact ⟨ha, Int.le_refl _, by omega⟩
    · obtain ⟨hdvd, hlow, hhigh⟩ := ih (fun x hx => hgrid x (List.mem_cons_of_mem t hx))
        (fun x hx => hnonneg x (List.mem_cons_of_mem t hx))
        (Int.dvd_add ha (hgrid t List.mem_cons_self)) hu
      exact ⟨hdvd, by omega, by omega⟩

/-- The partial sums of terms that are not negative lie between zero and the sum of all. -/
theorem Decimal.bounds_of_mem_partialSums {terms : List Decimal}
    (hgrid : ∀ t ∈ terms, (tenTo 12 : Int) ∣ t.units) (hnonneg : ∀ t ∈ terms, 0 ≤ t.units) {u : Int}
    (hu : u ∈ partialSums terms) :
    (tenTo 12 : Int) ∣ u ∧ 0 ≤ u ∧ u ≤ (terms.map units).sum := by
  obtain ⟨hdvd, hlow, hhigh⟩ := bounds_of_mem_scanl hgrid hnonneg (Int.dvd_zero _) hu
  exact ⟨hdvd, hlow, by omega⟩

namespace Ledger

variable {l l₁ : Ledger}

/-! ## Sums over lots -/

/-- A sum over all lots. -/
def lotSum (l : Ledger) (f : Lot → Int) : Int := (l.lots.items.map f).sum

theorem lotSum_put (l : Ledger) (f : Lot → Int) (lot : Lot) :
    lotSum { l with lots := l.lots.put lot } f + ((l.lot? lot.key).map f).getD 0 =
      l.lotSum f + f lot :=
  l.lots.sum_put f lot

theorem lotSum_erase (l : Ledger) (f : Lot → Int) (key : LotKey) :
    lotSum { l with lots := l.lots.erase key } f + ((l.lot? key).map f).getD 0 = l.lotSum f :=
  l.lots.sum_erase f key

theorem lotSum_add (l : Ledger) (f g : Lot → Int) :
    l.lotSum (fun lot => f lot + g lot) = l.lotSum f + l.lotSum g :=
  List.sum_map_add

/-- A lot counts no more than all lots, if none counts less than nothing. -/
theorem le_lotSum {f : Lot → Int} (h : ∀ lot ∈ l.lots.items, 0 ≤ f lot) {lot : Lot}
    (hlot : lot ∈ l.lots.items) : f lot ≤ l.lotSum f := by
  refine List.single_le_sum (fun v hv => ?_) _ (List.mem_map.mpr ⟨lot, hlot, rfl⟩)
  obtain ⟨x, hx, rfl⟩ := List.mem_map.mp hv
  exact h x hx

theorem lotSum_nonneg {f : Lot → Int} (h : ∀ lot ∈ l.lots.items, 0 ≤ f lot) : 0 ≤ l.lotSum f := by
  refine List.sum_nonneg fun v hv => ?_
  obtain ⟨lot, hlot, rfl⟩ := List.mem_map.mp hv
  exact h lot hlot

theorem dvd_lotSum {f : Lot → Int} {n : Int} (h : ∀ lot ∈ l.lots.items, n ∣ f lot) :
    n ∣ l.lotSum f := by
  refine List.dvd_sum fun v hv => ?_
  obtain ⟨lot, hlot, rfl⟩ := List.mem_map.mp hv
  exact h lot hlot

/-- A sum over some lots is one over all lots, of which the others count nothing. -/
theorem sum_map_units (l : Ledger) {p : Lot → Bool} {shares : Lot → Decimal} {f : Lot → Int}
    (h : ∀ lot, f lot = if p lot then (shares lot).units else 0) :
    (((l.lots.items.filter p).map shares).map units).sum = l.lotSum f := by
  have hfilter : (l.lots.items.map f).sum = ((l.lots.items.filter p).map f).sum :=
    sum_map_filter fun lot _ hlot => by
      rw [h, hlot]
      rfl
  rw [lotSum, hfilter, List.map_map]
  refine congrArg List.sum (List.map_congr_left fun lot hlot => ?_)
  rw [h, if_pos (List.of_mem_filter hlot)]
  rfl

/-- What the lots of a purchase take of it. -/
def taken (purchase : EntryId) (lot : Lot) : Int :=
  if lot.purchase = purchase then lot.purchaseShares.units else 0

/-- What the lots of a purchase with other sales take of it. -/
def takenElsewhere (key : LotKey) (lot : Lot) : Int :=
  if lot.purchase = key.purchase ∧ lot.sale ≠ key.sale then lot.purchaseShares.units else 0

/-- What the lots of a sale cover of it. -/
def covered (sale : EntryId) (lot : Lot) : Int :=
  if lot.sale = sale then lot.adjustedShares.units else 0

theorem sum_purchaseShares (l : Ledger) (id : EntryId) :
    (((l.lotsByPurchase id).map Lot.purchaseShares).map units).sum = l.lotSum (taken id) :=
  l.sum_map_units fun lot => by simp [taken]

theorem sum_adjustedShares (l : Ledger) (id : EntryId) :
    (((l.lotsBySale id).map Lot.adjustedShares).map units).sum = l.lotSum (covered id) :=
  l.sum_map_units fun lot => by simp [covered]

/-- What the other sales leave of a purchase. -/
def leftFor (l : Ledger) (key : LotKey) (e : Entry) : Int :=
  e.quantityOrZero.units - l.lotSum (takenElsewhere key)

/-- What is taken of a purchase is taken by the lot with a sale and by those with other sales. -/
theorem lotSum_taken (l : Ledger) (key : LotKey) :
    l.lotSum (taken key.purchase) = l.lotSum (takenElsewhere key) +
      ((l.lot? key).map fun lot => lot.purchaseShares.units).getD 0 := by
  have hkey := l.lots.sum_at_key (fun lot => lot.purchaseShares.units) key
  have hsplit : taken key.purchase = fun lot =>
      takenElsewhere key lot + if lot.key = key then lot.purchaseShares.units else 0 := by
    funext lot
    obtain ⟨purchase, sale⟩ := key
    unfold taken takenElsewhere Lot.key
    by_cases hpurchase : lot.purchase = purchase <;> by_cases hsale : lot.sale = sale <;>
      simp [hpurchase, hsale]
  rw [hsplit, lotSum_add]
  exact congrArg _ hkey

/-- One share in the last of the places that shares are kept at. -/
def leastShares (l : Ledger) : Int := tenTo (maxPlaces - l.settings.sharePlaces)

/-! ## Purchases in whole -/

/-- Whether no split lies between the days of a lot, or the splits cancel out. -/
def Straight (l : Ledger) (key : LotKey) : Prop :=
  ∀ r, l.splitRatio (l.lotContext key) = .ok r → r.isIdentity = true

instance (l : Ledger) (key : LotKey) : Decidable (l.Straight key) :=
  decidable_of_iff (∀ r ∈ (l.splitRatio (l.lotContext key)).toOption, r.isIdentity = true)
    (forall_congr' fun _ => imp_congr_left toOption_eq_some_iff)

/-- Whether a sale finds a purchase in whole: it is not split on the way, or other sales took of it what
comes in the places that shares are kept at. -/
def FoundWhole (l : Ledger) (key : LotKey) : Prop :=
  l.Straight key ∨ l.leastShares ∣ l.lotSum (takenElsewhere key)

instance (l : Ledger) (key : LotKey) : Decidable (l.FoundWhole key) :=
  inferInstanceAs (Decidable (l.Straight key ∨ l.leastShares ∣ l.lotSum (takenElsewhere key)))

/-! ## The terms of matching -/

/-- Whether all splits are in whole numbers. -/
def WholeSplits (l : Ledger) : Prop :=
  ∀ s ∈ l.securities.items, ∀ split ∈ s.history.splits.items, split.ratio.IsWhole

/-- Whether all numbers are small: no entry has more than a trillion shares, or comes to more than that by
splits, of which at most a trillion shares are turned in for so many others; and what the splits between
two entries and the price of an entry come to can be told. -/
structure Modest (l : Ledger) : Prop where
  quantity : ∀ e ∈ l.entries.items, e.quantityOrZero.units.natAbs ≤ trillion
  ratio : ∀ e ∈ l.entries.items, ∀ sale ∈ l.entries.items,
    ∃ r ∈ (l.splitRatio (l.lotContext ⟨e.id, sale.id⟩)).toOption,
      r.sharesIn.units ≤ trillion ∧ e.quantityOrZero.units.natAbs * r.sharesOut.units ≤ trillion * unit
  price : ∀ e ∈ l.entries.items, (l.unitPrice e.id).toOption.isSome

instance (l : Ledger) : Decidable l.WholeSplits :=
  inferInstanceAs (Decidable (∀ s ∈ l.securities.items, ∀ split ∈ s.history.splits.items,
    split.ratio.IsWhole))

theorem modest_iff (l : Ledger) : l.Modest ↔
    (∀ e ∈ l.entries.items, e.quantityOrZero.units.natAbs ≤ trillion) ∧
      (∀ e ∈ l.entries.items, ∀ sale ∈ l.entries.items,
        ∃ r ∈ (l.splitRatio (l.lotContext ⟨e.id, sale.id⟩)).toOption, r.sharesIn.units ≤ trillion ∧
          e.quantityOrZero.units.natAbs * r.sharesOut.units ≤ trillion * unit) ∧
      ∀ e ∈ l.entries.items, (l.unitPrice e.id).toOption.isSome :=
  ⟨fun h => ⟨h.quantity, h.ratio, h.price⟩, fun ⟨hquantity, hratio, hprice⟩ => ⟨hquantity, hratio, hprice⟩⟩

instance (l : Ledger) : Decidable l.Modest := decidable_of_iff _ (modest_iff l).symm

/-- What matching relies on, none of which it changes. -/
structure Terms (account : AccountId) (l : Ledger) : Prop where
  sound : l.Sound
  scaled : l.Scaled
  places_le : l.settings.sharePlaces ≤ Settings.maxSharePlaces
  account : ∀ t ∈ l.transactions.items, t.account = account
  whole : l.WholeSplits
  modest : l.Modest

/-- The splits between a purchase and a sale come to `m` shares for every `n`, and both are small for what
the purchase has. -/
structure Converts (l : Ledger) (key : LotKey) (e : Entry) (r : SplitRatio) (m n : Nat) : Prop where
  ratio : l.splitRatio (l.lotContext key) = .ok r
  sharesOut : r.sharesOut.units = m * unit
  sharesIn : r.sharesIn.units = n * unit
  out_pos : 0 < m
  in_pos : 0 < n
  in_le : n ≤ tenTo 12
  quantity_le : e.quantityOrZero.units.natAbs * m ≤ trillion

variable {account : AccountId}

namespace Terms

variable (h : l.Terms account)
include h

theorem of_changed (hchanged : Changed l l₁) (hsame : l.SameButLots l₁) : l₁.Terms account where
  sound := hchanged.sound h.sound
  scaled := hchanged.scaled h.sound h.scaled
  places_le := by
    rw [hsame]
    exact h.places_le
  account := by
    rw [hsame]
    exact h.account
  whole := by
    rw [hsame]
    exact h.whole
  modest := by
    rw [hsame]
    exact ⟨h.modest.quantity, h.modest.ratio, h.modest.price⟩

theorem places_le_eight (key : LotKey) : l.placesOver (l.lotContext key) ≤ 8 :=
  (h.scaled.placesOver_eq _).trans_le h.places_le

variable {id : EntryId} {e : Entry}

/-- Shares have at most sixteen places. -/
theorem dvd_quantity (he : l.entry? id = some e) : (tenTo 12 : Int) ∣ e.quantityOrZero.units :=
  (h.scaled.entry id e he).mono 16 (h.places_le.trans (by decide))

theorem quantity_le (he : l.entry? id = some e) : e.quantityOrZero.units.natAbs ≤ trillion := by
  obtain rfl := id_of_entry he
  exact h.modest.quantity e (Register.mem_items_iff.mpr he)

/-- Whatever splits come together in, it is whole numbers. -/
theorem ratio_isWhole {c : SplitContext} {r : SplitRatio} (hr : l.splitRatio c = .ok r) : r.IsWhole :=
  splitRatio_keeps ⟨⟨1, by decide, rfl⟩, 1, by decide, rfl⟩ (fun _ _ _ => .compound) h.whole hr

/-- What a purchase has can be converted to the day of any sale. -/
theorem exists_converts {key : LotKey} {sale : Entry} (he : l.entry? key.purchase = some e)
    (hsale : l.entry? key.sale = some sale) : ∃ r m n, l.Converts key e r m n := by
  have hkey : (⟨e.id, sale.id⟩ : LotKey) = key := by rw [id_of_entry he, id_of_entry hsale]
  rw [← id_of_entry he] at he
  rw [← id_of_entry hsale] at hsale
  obtain ⟨r, hr, hsmall, hproduct⟩ := h.modest.ratio e (Register.mem_items_iff.mpr he)
    sale (Register.mem_items_iff.mpr hsale)
  rw [hkey, Option.mem_def, toOption_eq_some_iff] at hr
  obtain ⟨⟨m, hm, hout⟩, n, hn, hin⟩ := h.ratio_isWhole hr
  rw [hin] at hsmall
  rw [hout, ← Int.mul_assoc] at hproduct
  have hunit : (0 : Int) < unit := by decide
  have hcap : (trillion : Int) = tenTo 12 * unit := rfl
  refine ⟨r, m, n, hr, hout, hin, hm, hn, ?_, ?_⟩
  · have hle := Int.le_of_mul_le_mul_right (hcap ▸ hsmall) hunit
    omega
  · exact_mod_cast Int.le_of_mul_le_mul_right hproduct hunit

/-- As all transactions are in one account, a purchase has left for a sale what it has left at all. -/
theorem remainingForAccount_eq {t : Transaction} (he : l.entry? id = some e)
    (ht : t ∈ l.transactions.items) : l.remainingForAccount id t.account = l.remainingShares id := by
  obtain ⟨owner, purchased, howner, hpurchased, -⟩ := h.sound.owned.owner id e he
  have hthere : l.owner? id = some purchased := owner?_eq_some.mpr ⟨e, owner, he, howner, hpurchased⟩
  have haccount : purchased.account = t.account :=
    (h.account purchased (Register.get?_eq_some_iff.mp hpurchased).1).trans (h.account t ht).symm
  rw [remainingForAccount, hthere]
  exact if_pos haccount

end Terms

/-! ## What matching keeps -/

/-- Lots lie between entries and have no fewer shares than none, with at most sixteen places. -/
structure Tidy (l : Ledger) : Prop where
  linked : ∀ lot ∈ l.lots.items,
    (∃ e, l.entry? lot.purchase = some e) ∧ ∃ e, l.entry? lot.sale = some e
  dvd : ∀ lot ∈ l.lots.items,
    (tenTo 12 : Int) ∣ lot.purchaseShares.units ∧ (tenTo 12 : Int) ∣ lot.adjustedShares.units
  nonneg : ∀ lot ∈ l.lots.items, 0 ≤ lot.purchaseShares.units ∧ 0 ≤ lot.adjustedShares.units

/-- No purchase has given away more than it has, and no sale is covered more than it needs. -/
structure Stocked (l : Ledger) : Prop extends Tidy l where
  taken_le : ∀ id e, l.entry? id = some e → l.lotSum (taken id) ≤ Max.max e.quantityOrZero.units 0
  covered_le : ∀ id e, l.entry? id = some e →
    l.lotSum (covered id) ≤ Max.max (-e.quantityOrZero.units) 0

theorem sum_units_eq_ok {terms : List Decimal} (hgrid : ∀ t ∈ terms, (tenTo 12 : Int) ∣ t.units)
    (hnonneg : ∀ t ∈ terms, 0 ≤ t.units) (hle : (terms.map units).sum ≤ 7 * trillion) :
    ∃ d, Decimal.sum terms = .ok d ∧ d.units = (terms.map units).sum := by
  refine sum_exact fun u hu => ?_
  obtain ⟨hdvd, hlow, hhigh⟩ := bounds_of_mem_partialSums hgrid hnonneg hu
  exact representable_of_dvd hdvd (by omega)

namespace Tidy

variable (h : l.Tidy)
include h

theorem taken_nonneg (id : EntryId) : ∀ lot ∈ l.lots.items, 0 ≤ taken id lot := by
  intro lot hlot
  unfold taken
  split
  · exact (h.nonneg lot hlot).1
  · exact Int.le_refl 0

theorem covered_nonneg (id : EntryId) : ∀ lot ∈ l.lots.items, 0 ≤ covered id lot := by
  intro lot hlot
  unfold covered
  split
  · exact (h.nonneg lot hlot).2
  · exact Int.le_refl 0

theorem dvd_taken (id : EntryId) : (tenTo 12 : Int) ∣ l.lotSum (taken id) := by
  refine dvd_lotSum fun lot hlot => ?_
  unfold taken
  split
  · exact (h.dvd lot hlot).1
  · exact Int.dvd_zero _

theorem dvd_covered (id : EntryId) : (tenTo 12 : Int) ∣ l.lotSum (covered id) := by
  refine dvd_lotSum fun lot hlot => ?_
  unfold covered
  split
  · exact (h.dvd lot hlot).2
  · exact Int.dvd_zero _

theorem elsewhere_nonneg (key : LotKey) : 0 ≤ l.lotSum (takenElsewhere key) := by
  refine lotSum_nonneg fun lot hlot => ?_
  unfold takenElsewhere
  split
  · exact (h.nonneg lot hlot).1
  · exact Int.le_refl 0

theorem dvd_elsewhere (key : LotKey) : (tenTo 12 : Int) ∣ l.lotSum (takenElsewhere key) := by
  refine dvd_lotSum fun lot hlot => ?_
  unfold takenElsewhere
  split
  · exact (h.dvd lot hlot).1
  · exact Int.dvd_zero _

/-- What other sales take of a purchase is part of what is taken. -/
theorem elsewhere_le (key : LotKey) :
    l.lotSum (takenElsewhere key) ≤ l.lotSum (taken key.purchase) := by
  have hlot : 0 ≤ ((l.lot? key).map fun lot => lot.purchaseShares.units).getD 0 := by
    cases hkey : l.lot? key with
    | none => exact Int.le_refl 0
    | some lot => exact (h.nonneg lot (Register.get?_eq_some_iff.mp hkey).1).1
  have := l.lotSum_taken key
  omega

/-- What a purchase has left is exact also where somewhat more is taken of it than it has. -/
theorem remainingShares_eq_ok (hterms : l.Terms account) {id : EntryId} {e : Entry}
    (he : l.entry? id = some e) (htaken : l.lotSum (taken id) ≤ 3 * trillion) :
    ∃ d, l.remainingShares id = .ok d ∧ d.units = e.quantityOrZero.units - l.lotSum (taken id) := by
  have hlow := lotSum_nonneg (h.taken_nonneg id)
  have hquantity := hterms.quantity_le he
  have hgrid : ∀ t ∈ (l.lotsByPurchase id).map Lot.purchaseShares, (tenTo 12 : Int) ∣ t.units := by
    intro t ht
    obtain ⟨lot, hlot, rfl⟩ := List.mem_map.mp ht
    exact (h.dvd lot (List.mem_of_mem_filter hlot)).1
  have hnonneg : ∀ t ∈ (l.lotsByPurchase id).map Lot.purchaseShares, 0 ≤ t.units := by
    intro t ht
    obtain ⟨lot, hlot, rfl⟩ := List.mem_map.mp ht
    exact (h.nonneg lot (List.mem_of_mem_filter hlot)).1
  have hsum := l.sum_purchaseShares id
  obtain ⟨consumed, hconsumed, hunits⟩ := sum_units_eq_ok hgrid hnonneg (by omega)
  rw [hsum] at hunits
  obtain ⟨d, hd, hdUnits⟩ := sub_exact (a := e.quantityOrZero) (b := consumed) (by
    rw [hunits]
    exact representable_of_dvd (Int.dvd_sub (hterms.dvd_quantity he) (h.dvd_taken id)) (by omega))
  refine ⟨d, ?_, by rw [hdUnits, hunits]⟩
  rw [remainingShares, he]
  show (do let consumed ← Decimal.sum _; e.quantityOrZero.sub consumed) = _
  rw [hconsumed]
  exact hd

end Tidy

namespace Stocked

variable (h : l.Stocked) (hterms : l.Terms account) {id : EntryId} {e : Entry}
include h hterms

theorem coveredShares_eq_ok (he : l.entry? id = some e) :
    ∃ d, l.coveredShares id = .ok d ∧ d.units = l.lotSum (covered id) := by
  have hcovered := h.covered_le id e he
  have hquantity := hterms.quantity_le he
  rw [← sum_adjustedShares] at hcovered ⊢
  refine sum_units_eq_ok (fun t ht => ?_) (fun t ht => ?_) (by omega)
  · obtain ⟨lot, hlot, rfl⟩ := List.mem_map.mp ht
    exact (h.dvd lot (List.mem_of_mem_filter hlot)).2
  · obtain ⟨lot, hlot, rfl⟩ := List.mem_map.mp ht
    exact (h.nonneg lot (List.mem_of_mem_filter hlot)).2

theorem remainingShares_eq_ok (he : l.entry? id = some e) :
    ∃ d, l.remainingShares id = .ok d ∧ d.units = e.quantityOrZero.units - l.lotSum (taken id) := by
  have htaken := h.taken_le id e he
  have hquantity := hterms.quantity_le he
  exact h.toTidy.remainingShares_eq_ok hterms he (by omega)

variable {key : LotKey}

/-- The other sales leave no more of a purchase than it has. -/
theorem leftFor_bounds (he : l.entry? key.purchase = some e) :
    (tenTo 12 : Int) ∣ l.leftFor key e ∧ (l.leftFor key e).natAbs ≤ e.quantityOrZero.units.natAbs ∧
      l.leftFor key e ≤ e.quantityOrZero.units := by
  have hnonneg := h.elsewhere_nonneg key
  have hle := h.elsewhere_le key
  have htaken := h.taken_le key.purchase e he
  refine ⟨Int.dvd_sub (hterms.dvd_quantity he) (h.dvd_elsewhere key), ?_, ?_⟩
  · unfold leftFor
    omega
  · unfold leftFor
    omega

end Stocked

/-! ## How far a lot may grow -/

/-- A lot may draw on what its purchase has left, and grow to what the other sales leave of it, as far as
the splits let it. -/
structure Headroom.Measured {key : LotKey} (g : Headroom l key) (e : Entry) (m n : Nat) : Prop where
  remaining : g.remaining.units = e.quantityOrZero.units - l.lotSum (taken key.purchase)
  room : g.room.units = g.backed.units - g.lot.adjustedShares.units
  dvd : (tenTo 12 : Int) ∣ g.backed.units
  backed : g.backed.units * n ≤ l.leftFor key e * m

section Offered

variable {key : LotKey} {e : Entry} {r : SplitRatio} {m n : Nat} {lot : Lot}

theorem Tidy.exists_entries (h : l.Tidy) (hlot : l.lot? key = some lot) :
    (∃ e, l.entry? key.purchase = some e) ∧ ∃ e, l.entry? key.sale = some e := by
  rw [← key_of_lot hlot]
  exact h.linked lot (Register.get?_eq_some_iff.mp hlot).1

variable (h : l.Stocked) (hterms : l.Terms account)
include h hterms

/-- A lot covers no more of its sale than a trillion shares. -/
theorem Stocked.adjustedShares_bounds (hlot : l.lot? key = some lot) :
    (tenTo 12 : Int) ∣ lot.adjustedShares.units ∧ 0 ≤ lot.adjustedShares.units ∧
      lot.adjustedShares.units ≤ trillion := by
  obtain ⟨-, sale, hsale⟩ := h.exists_entries hlot
  have hmem := (Register.get?_eq_some_iff.mp hlot).1
  have hpart := le_lotSum (h.covered_nonneg key.sale) hmem
  have hown : covered key.sale lot = lot.adjustedShares.units :=
    if_pos (congrArg LotKey.sale (key_of_lot hlot))
  have hcovered := h.covered_le key.sale sale hsale
  have hquantity := hterms.quantity_le hsale
  exact ⟨(h.dvd lot hmem).2, (h.nonneg lot hmem).2, by omega⟩

variable (he : l.entry? key.purchase = some e) (hconverts : l.Converts key e r m n)
include he hconverts

theorem Converts.leftFor_mul_le : (l.leftFor key e).natAbs * m ≤ trillion :=
  (Nat.mul_le_mul_right m (h.leftFor_bounds hterms he).2.1).trans hconverts.quantity_le

/-- What backs a lot is what the other sales leave of its purchase, as far as the splits let it. -/
theorem Converts.coveredBy_eq_ok {total : Decimal} (htotal : total.units = l.leftFor key e) :
    ∃ backed, l.coveredBy (l.lotContext key) total = .ok backed ∧
      (tenTo 12 : Int) ∣ backed.units ∧ backed.units.natAbs ≤ trillion ∧
      backed.units * n ≤ l.leftFor key e * m := by
  obtain ⟨hdvd, hle, -⟩ := h.leftFor_bounds hterms he
  have hproduct := hconverts.leftFor_mul_le h hterms he
  have hquantity := hterms.quantity_le he
  rw [← htotal] at hdvd hle hproduct
  obtain ⟨x, hx, hsmall, hback⟩ := SplitRatio.exists_apply_down hconverts.sharesOut hconverts.sharesIn
    hconverts.in_pos hconverts.in_le hdvd hproduct
  refine ⟨_, coveredBy_of_ratio hconverts.ratio hx, ?_⟩
  split
  · rename_i hidentity
    obtain rfl := SplitRatio.eq_of_isIdentity hconverts.sharesOut hconverts.sharesIn hidentity
    exact ⟨hdvd, by omega, (congrArg (· * (m : Int)) htotal).le⟩
  · exact ⟨onGrid_roundTo .., hsmall, htotal ▸ hback⟩

/-- How far a lot may grow can always be told. -/
theorem Stocked.exists_headroom {sale : Transaction} (hlot : l.lot? key = some lot)
    (hsale : l.owner? key.sale = some sale) : ∃ g : Headroom l key, g.Measured e m n := by
  obtain ⟨remaining, hremaining, hremainingUnits⟩ := h.remainingShares_eq_ok hterms he
  have hmem : sale ∈ l.transactions.items := by
    obtain ⟨_, _, -, -, hfound⟩ := owner?_eq_some.mp hsale
    exact (Register.get?_eq_some_iff.mp hfound).1
  rw [← hterms.remainingForAccount_eq he hmem] at hremaining
  have hleft : lot.purchaseShares.units + remaining.units = l.leftFor key e := by
    have hsum := l.lotSum_taken key
    rw [hlot, Option.map_some, Option.getD_some] at hsum
    unfold leftFor
    omega
  obtain ⟨hdvd, hle, -⟩ := h.leftFor_bounds hterms he
  have hquantity := hterms.quantity_le he
  obtain ⟨total, htotal, htotalUnits⟩ := add_exact (a := lot.purchaseShares) (b := remaining)
    (hleft ▸ representable_of_dvd hdvd (by omega))
  obtain ⟨backed, hbacked, hgrid, hsize, hback⟩ :=
    hconverts.coveredBy_eq_ok h hterms he (htotalUnits.trans hleft)
  obtain ⟨hlotGrid, hlotLow, hlotHigh⟩ := h.adjustedShares_bounds hterms hlot
  obtain ⟨room, hroom, hroomUnits⟩ := sub_exact (a := backed) (b := lot.adjustedShares)
    (representable_of_dvd (Int.dvd_sub hgrid hlotGrid) (by omega))
  exact ⟨⟨lot, sale, remaining, total, backed, room, hlot, hsale, hremaining, htotal, hbacked, hroom⟩,
    hremainingUnits, hroomUnits, hgrid, hback⟩

end Offered

/-! ## How a lot grows -/

/-- A lot grows by part of a demand, from what its purchase has left, and not beyond what backs it. -/
structure Growth.Measured {key : LotKey} {demand : Decimal} (g : Growth l key demand) (e : Entry)
    (m n : Nat) : Prop where
  remaining : g.remaining.units = e.quantityOrZero.units - l.lotSum (Ledger.taken key.purchase)
  taken_dvd : (tenTo 12 : Int) ∣ g.taken.units
  taken_le : g.taken.units ≤ demand.units
  shares : g.adjustedShares.units = g.lot.adjustedShares.units + g.taken.units
  backed : g.adjustedShares.units * n ≤ l.leftFor key e * m

section Growing

variable {key : LotKey} {e : Entry} {r : SplitRatio} {m n : Nat} {demand : Decimal}
  (h : l.Stocked) (hterms : l.Terms account) (he : l.entry? key.purchase = some e)
  (hconverts : l.Converts key e r m n)
include h hterms he hconverts

/-- A lot with room grows, and nothing overflows. -/
theorem Headroom.Measured.exists_growth {g : Headroom l key} (hg : g.Measured e m n) (hroom : 0 < g.room)
    (hdemand : 0 < demand) (hdvd : (tenTo 12 : Int) ∣ demand.units) :
    ∃ growth : Growth l key demand, growth.Measured e m n := by
  obtain ⟨hremaining, hroomUnits, hgrid, hback⟩ := hg
  obtain ⟨hlotGrid, hlotLow, hlotHigh⟩ := h.adjustedShares_bounds hterms g.lot?_eq
  have hroom_pos : 0 < g.room.units := hroom
  have hdemand_pos : 0 < demand.units := hdemand
  have htaken : (demand.min g.room).units = Min.min demand.units g.room.units := units_min ..
  have htakenGrid : (tenTo 12 : Int) ∣ (demand.min g.room).units := by
    rw [htaken]
    rcases Int.le_total demand.units g.room.units with hle | hle
    · rwa [Int.min_eq_left hle]
    · rw [Int.min_eq_right hle, hroomUnits]
      exact Int.dvd_sub hgrid hlotGrid
  -- the backed shares are no more than all that the other sales leave, as of the sale date
  have hself : g.backed.units ≤ g.backed.units * n :=
    le_mul_of_one_le_right (by omega) (by exact_mod_cast hconverts.in_pos)
  have hproduct := hconverts.leftFor_mul_le h hterms he
  rw [← Int.natAbs_natCast m, ← Int.natAbs_mul] at hproduct
  obtain ⟨shares, hshares, hsharesUnits⟩ := add_exact (a := g.lot.adjustedShares)
    (b := demand.min g.room) (representable_of_dvd (Int.dvd_add hlotGrid htakenGrid) (by omega))
  have hsharesBack : shares.units * n ≤ l.leftFor key e * m :=
    (Int.mul_le_mul_of_nonneg_right (by omega) (Int.natCast_nonneg n)).trans hback
  have hsharesLow : 0 ≤ shares.units * n := Int.mul_nonneg (by omega) (Int.natCast_nonneg n)
  have hsmall : |shares.units * n| ≤ ((tenTo 12 : Nat) : Int) * unit := by
    rw [abs_of_nonneg hsharesLow]
    unfold trillion at hproduct
    omega
  obtain ⟨x, hx, -⟩ := SplitRatio.exists_revert_close hconverts.sharesOut hconverts.sharesIn
    hconverts.out_pos hsmall (by decide)
  exact ⟨⟨g, shares, _, hroom, hdemand, hshares, covering_of_ratio hconverts.ratio hx⟩, hremaining,
    htakenGrid, by show (demand.min g.room).units ≤ _; omega, hsharesUnits, hsharesBack⟩

namespace Growth.Measured

variable {g : Growth l key demand} (hg : g.Measured e m n)
include hg

omit he hconverts in
theorem shares_bounds : (tenTo 12 : Int) ∣ g.adjustedShares.units ∧ 0 < g.adjustedShares.units := by
  obtain ⟨hdvd, hlow, -⟩ := h.adjustedShares_bounds hterms g.lot?_eq
  have hpos : 0 < g.taken.units := g.taken_pos
  have hshares := hg.shares
  exact ⟨hshares ▸ Int.dvd_add hdvd hg.taken_dvd, by omega⟩

/-- What a lot grows to is small, and its purchase has shares to give. -/
theorem shares_le : g.adjustedShares.units.natAbs * n ≤ trillion ∧ 0 < l.leftFor key e := by
  obtain ⟨-, hpos⟩ := hg.shares_bounds h hterms
  have hback := hg.backed
  have hproduct := hconverts.leftFor_mul_le h hterms he
  rw [← Int.natAbs_natCast m, ← Int.natAbs_mul] at hproduct
  have hscaled : 0 < g.adjustedShares.units * n :=
    Int.mul_pos hpos (by exact_mod_cast hconverts.in_pos)
  refine ⟨?_, ?_⟩
  · rw [← Int.natAbs_natCast n, ← Int.natAbs_mul]
    omega
  · exact pos_of_mul_pos_left (hscaled.trans_le hback) (Int.natCast_nonneg m)

/-- A lot takes no more of its purchase than any number of shares that the other sales leave of it, if
that many can be given: any number where there are no splits, and as many as the places of shares allow
where there are. -/
theorem purchaseShares_spec : (tenTo 12 : Int) ∣ g.purchaseShares.units ∧ 0 ≤ g.purchaseShares.units ∧
    ∀ bound, l.leftFor key e ≤ bound → (l.Straight key ∨ l.leastShares ∣ bound) →
      g.purchaseShares.units ≤ bound := by
  obtain ⟨hdvd, hpos⟩ := hg.shares_bounds h hterms
  obtain ⟨hsmall, -⟩ := hg.shares_le h hterms he hconverts
  have hback := hg.backed
  rcases covering_ratio hconverts.ratio g.purchaseShares_eq with ⟨hidentity, heq⟩ | ⟨hsplit, x, hx, heq⟩
  · obtain rfl := SplitRatio.eq_of_isIdentity hconverts.sharesOut hconverts.sharesIn hidentity
    have hle := Int.le_of_mul_le_mul_right hback (by exact_mod_cast hconverts.out_pos)
    rw [heq]
    exact ⟨hdvd, hpos.le, fun bound hbound _ => hle.trans hbound⟩
  · have hfew : l.placesOver (l.lotContext key) ≤ 16 := (hterms.places_le_eight key).trans (by decide)
    rw [heq]
    refine ⟨(onGrid_roundTo .up _ x).mono 16 hfew, ?_, fun bound hbound hwhole => ?_⟩
    · exact roundTo_nonneg .up _ (SplitRatio.revert_nonneg (hterms.ratio_isWhole hconverts.ratio) hx hpos.le)
    · have hbound_grid : l.leastShares ∣ bound := by
        rcases hwhole with hstraight | hwhole
        · rw [hstraight r hconverts.ratio] at hsplit
          cases hsplit
        · exact hwhole
      rw [leastShares, ← hterms.scaled.placesOver_eq (l.lotContext key)] at hbound_grid
      have hscaled := Int.mul_le_mul_of_nonneg_right hbound (Int.natCast_nonneg m)
      rw [← Int.natAbs_natCast n, ← Int.natAbs_mul] at hsmall
      exact SplitRatio.revert_up_le hconverts.sharesOut hconverts.sharesIn hconverts.out_pos hpos.le
        (by omega) hfew hbound_grid (hback.trans hscaled) hx

end Growth.Measured

end Growing

end Ledger

end Lotbook
