/-
# Lotbook.Proofs.Offers -- a demand offered to one purchase

A matching offers what is left of a demand to one candidate after another (`Ledger.offer`). If nothing is
rounded, a purchase that leaves some of it is used up: its lot has all the shares that back it. A purchase
that is used up takes no more, and stays so while other lots of the sale grow (`Ledger.UsedUp.put`). So
every offer either leaves the ledger as it is or grows one lot that had room (`Ledger.Offered`).
-/
import Lotbook.Proofs.Draws

namespace Lotbook.Ledger

open Decimal

variable {l l₁ made : Ledger} {key : LotKey} {sale purchase : EntryId} {account : AccountId}
  {candidates : List EntryId} {demand rest : Decimal}

/-! ## One offer -/

/-- What is left of the demand of a sale, and the ledger, when it has been offered to a candidate. -/
def offer (sale : EntryId) (before : Decimal × Ledger) (purchase : EntryId) :
    Except Failure (Decimal × Ledger) :=
  if before.1 = 0 ∨ purchase = sale then .ok before
  else do
    let key : LotKey := ⟨purchase, sale⟩
    let made ← before.2.withLot key
    let (rest, after) ← made.allocateShares key before.1
    return (rest, if rest < before.1 then after else before.2.dropIfNew key after)

/-- An offer is the lot that it makes or finds, grown; if nothing of the demand is taken, a lot that it
made is dropped again. -/
theorem offer_eq_ok_iff (hdemand : demand ≠ 0) (hself : purchase ≠ sale) :
    offer sale (demand, l) purchase = .ok (rest, l₁) ↔
      ∃ made after, l.withLot ⟨purchase, sale⟩ = .ok made ∧
        made.allocateShares ⟨purchase, sale⟩ demand = .ok (rest, after) ∧
        l₁ = if rest < demand then after else l.dropIfNew ⟨purchase, sale⟩ after := by
  rw [offer, if_neg (not_or.mpr ⟨hdemand, hself⟩)]
  simp only [bind_eq_ok_iff, liftM_ledger_eq_ok_iff, liftM_fault_eq_ok_iff, pure_eq_ok_iff,
    Prod.exists, Prod.mk.injEq]
  constructor
  · rintro ⟨made, hmade, rest', after, hgrow, rfl, rfl⟩
    exact ⟨made, after, hmade, hgrow, rfl⟩
  · rintro ⟨made, after, hmade, hgrow, rfl⟩
    exact ⟨made, hmade, rest, after, hgrow, rfl, rfl⟩

/-- A matching that comes to an end has come through with its first offer. -/
theorem exists_offer {a : Allocation}
    (h : l.coverDemand sale demand (purchase :: candidates) = .ok (.ok a, l₁)) :
    ∃ rest l₂ b, offer sale (demand, l) purchase = .ok (rest, l₂) ∧
      l₂.coverDemand sale rest candidates = .ok (.ok b, l₁) ∧
      a = if rest < demand then l.noted ⟨purchase, sale⟩ b else b := by
  have hsame : ¬ demand < demand := Int.lt_irrefl demand.units
  by_cases hidle : demand = 0 ∨ purchase = sale
  · refine ⟨demand, l, a, if_pos hidle, ?_, by rw [if_neg hsame]⟩
    rcases hidle with rfl | hself
    · rw [coverDemand_zero] at h ⊢
      exact h
    · by_cases hzero : demand = 0
      · rw [hzero, coverDemand_zero] at h ⊢
        exact h
      · rwa [coverDemand, if_neg hzero, if_pos hself] at h
  obtain ⟨hzero, hself⟩ := not_or.mp hidle
  rcases coverDemand_cons_eq_ok h with
    ⟨hzero', -⟩ | ⟨hself', -⟩ | ⟨e, -, he, -⟩ | ⟨made, rest, after, hmade, hgrow, hrest⟩
  · exact absurd hzero' hzero
  · exact absurd hself' hself
  · cases he
  have hoffer := (offer_eq_ok_iff hzero hself).mpr ⟨made, after, hmade, hgrow, rfl⟩
  rcases hrest with ⟨hless, o, hrest, ho⟩ | ⟨hless, hrest⟩
  · obtain ⟨b, rfl, rfl⟩ := map_eq_ok_iff.mp ho.symm
    rw [if_pos hless] at hoffer
    exact ⟨rest, _, b, hoffer, hrest, (if_pos hless).symm⟩
  · rw [if_neg hless] at hoffer
    exact ⟨rest, _, a, hoffer, hrest, (if_neg hless).symm⟩

/-- An offer that changes nothing may be left out. -/
theorem coverDemand_of_passed (h : offer sale (demand, l) purchase = .ok (demand, l))
    (candidates : List EntryId) :
    l.coverDemand sale demand (purchase :: candidates) = l.coverDemand sale demand candidates := by
  by_cases hzero : demand = 0
  · rw [hzero, coverDemand_zero, coverDemand_zero]
  by_cases hself : purchase = sale
  · rw [coverDemand, if_neg hzero, if_pos hself]
  obtain ⟨made, after, hmade, hgrow, hleft⟩ := (offer_eq_ok_iff hzero hself).mp h
  have hsame : ¬ demand < demand := Int.lt_irrefl demand.units
  rw [if_neg hsame] at hleft
  rw [coverDemand_cons_eq hzero hself, hmade]
  simp only [hgrow, bind, Except.bind, ← hleft, if_neg hsame]

/-! ## Sales and their purchases -/

/-- A sale that is booked in an account, in a ledger in which no entry and no lot is left hanging. -/
structure Placed (l : Ledger) (sale : EntryId) (account : AccountId) : Prop where
  booked : l.isBookedIn account sale = true
  owned : ∀ id e, l.entry? id = some e → ∃ t, l.owner? id = some t
  linked : ∀ key lot, l.lot? key = some lot → ∃ e, l.entry? key.purchase = some e

/-- A sale that is no transfer within its account, so that it takes from every purchase only once. -/
structure Selling (l : Ledger) (sale : EntryId) (account : AccountId) : Prop
    extends l.Placed sale account where
  outward : l.isInternal sale = false

theorem Reachable.placed (h : l.Reachable) (hbooked : l.isBookedIn account sale = true) :
    l.Placed sale account where
  booked := hbooked
  owned _ _ he := (h.sound.exists_owner he).imp fun _ ht => ht.1
  linked key lot hlot := h.lotsFollow.entries key lot hlot key.purchase (.inl rfl)

theorem Reachable.selling (h : l.Reachable) (hbooked : l.isBookedIn account sale = true)
    (houtward : l.isInternal sale = false) : l.Selling sale account :=
  ⟨h.placed hbooked, houtward⟩

theorem Selling.takesOnce (h : l.Selling sale account) (hsale : key.sale = sale) :
    l.TakesOnce key account := by
  obtain ⟨t, ht, rfl⟩ := isBookedIn_eq_true.mp h.booked
  subst hsale
  exact takesOnce_of_not_internal ht h.outward

theorem TakesOnce.put (h : l.TakesOnce key account) (lot : Lot) :
    TakesOnce { l with lots := l.lots.put lot } key account := ⟨h.booked, h.outward⟩

/-- A lot of a purchase that is there may be put in without any entry being looked at again. -/
theorem Placed.put (h : l.Placed sale account) {lot : Lot} (he : ∃ e, l.entry? lot.purchase = some e) :
    Placed { l with lots := l.lots.put lot } sale account where
  booked := h.booked
  owned := h.owned
  linked key x hx := by
    rw [lot?_put] at hx
    split at hx
    · rename_i hkey
      rw [hkey]
      exact he
    · exact h.linked key x hx

theorem lotOrEmpty_key (l : Ledger) (key : LotKey) : (l.lotOrEmpty key).key = key := by
  unfold lotOrEmpty
  cases hlot : l.lot? key with
  | none => rfl
  | some lot => exact key_of_lot hlot

/-- A lot in the place of another covers as much more of its sale as it has more shares. -/
theorem lotSum_covered_put (l : Ledger) (sale : EntryId) {lot : Lot} (hkey : lot.key = key)
    (hsale : key.sale = sale) :
    lotSum { l with lots := l.lots.put lot } (covered sale) = l.lotSum (covered sale) +
      (lot.adjustedShares.units - (l.lotOrEmpty key).adjustedShares.units) := by
  subst hsale
  have hput := l.lotSum_put (covered key.sale) lot
  have hcounts : covered key.sale lot = lot.adjustedShares.units :=
    if_pos (congrArg LotKey.sale hkey)
  have hbefore : ((l.lot? lot.key).map (covered key.sale)).getD 0 =
      (l.lotOrEmpty key).adjustedShares.units := by
    rw [hkey, lotOrEmpty]
    cases hlot : l.lot? key with
    | none => rfl
    | some x => exact if_pos (congrArg LotKey.sale (key_of_lot hlot))
  omega

/-- A lot that is there, or is made, links a purchase that is there. -/
theorem Placed.withLot_eq_ok (h : l.Placed sale account) (hmade : l.withLot key = .ok made) :
    (∃ e, l.entry? key.purchase = some e) ∧
      made = { l with lots := l.lots.put (l.lotOrEmpty key) } := by
  unfold withLot at hmade
  split at hmade
  · rename_i hsome
    obtain ⟨lot, hlot⟩ := Option.isSome_iff_exists.mp hsome
    have hput : l.lots.put lot = l.lots :=
      Register.put_of_get? (show l.lot? lot.key = some lot by rw [key_of_lot hlot, hlot])
    rw [lotOrEmpty_of_lot? hlot, hput]
    exact ⟨h.linked key lot hlot, (Except.ok.inj hmade).symm⟩
  · rename_i hnone
    obtain ⟨he, -, -, rfl⟩ := insertLot_eq_ok hmade
    rw [lotOrEmpty, Option.not_isSome_iff_eq_none.mp hnone]
    exact ⟨he, rfl⟩

/-- A lot that takes nothing leaves the ledger as it was before it was made. -/
theorem dropIfNew_put_lotOrEmpty (l : Ledger) (key : LotKey) :
    l.dropIfNew key { l with lots := l.lots.put (l.lotOrEmpty key) } = l := by
  unfold dropIfNew
  cases hlot : l.lot? key with
  | some lot =>
    have hput : l.lots.put lot = l.lots :=
      Register.put_of_get? (show l.lot? lot.key = some lot by rw [key_of_lot hlot, hlot])
    rw [lotOrEmpty_of_lot? hlot, hput]
    rfl
  | none =>
    have herase : (l.lots.put (Lot.empty key)).erase key = l.lots :=
      Register.erase_put (x := Lot.empty key) hlot
    rw [lotOrEmpty, hlot, Option.getD_none, herase]
    rfl

/-! ## Purchases that are used up -/

/-- Whether a purchase that is there has no more for a sale: the lot has all the shares that back it. -/
structure UsedUp (l : Ledger) (key : LotKey) (account : AccountId) : Prop where
  entry : ∃ e, l.entry? key.purchase = some e
  full : ∃ total backed : Decimal, total.units = l.supply key account ∧
    l.coveredBy (l.lotContext key) total = .ok backed ∧ backed ≤ (l.lotOrEmpty key).adjustedShares

/-- Whether a purchase is used up is told by what backs the lot, however that was come to. -/
theorem usedUp_iff {total backed : Decimal} (he : ∃ e, l.entry? key.purchase = some e)
    (htotal : total.units = l.supply key account)
    (hbacked : l.coveredBy (l.lotContext key) total = .ok backed) :
    l.UsedUp key account ↔ backed ≤ (l.lotOrEmpty key).adjustedShares := by
  refine ⟨fun h => ?_, fun hle => ⟨he, total, backed, htotal, hbacked, hle⟩⟩
  obtain ⟨total', backed', htotal', hbacked', hle⟩ := h.full
  rw [ext_units (htotal'.trans htotal.symm), hbacked] at hbacked'
  rwa [Except.ok.inj hbacked']

/-- It stays used up while other lots of the sale grow. -/
theorem UsedUp.put (h : l.UsedUp key account) (honce : l.TakesOnce key account) {lot : Lot}
    (hsale : lot.sale = key.sale) (hother : lot.key ≠ key) :
    UsedUp { l with lots := l.lots.put lot } key account := by
  obtain ⟨total, backed, htotal, hbacked, hle⟩ := h.full
  refine ⟨h.entry, total, backed, htotal.trans (honce.supply_put hsale).symm, hbacked, ?_⟩
  rwa [lotOrEmpty_put, if_neg hother.symm]

/-! ## What comes of an offer -/

/-- Whether nothing is rounded when a demand is offered to a candidate. -/
def OffersExactly (sale : EntryId) (before : Decimal × Ledger) (purchase : EntryId) : Prop :=
  purchase ≠ sale → ∀ made ∈ (before.2.withLot ⟨purchase, sale⟩).toOption,
    made.AllocatesExactly ⟨purchase, sale⟩ before.1

instance (sale : EntryId) (before : Decimal × Ledger) (purchase : EntryId) :
    Decidable (OffersExactly sale before purchase) :=
  inferInstanceAs (Decidable (purchase ≠ sale → ∀ made ∈ (before.2.withLot ⟨purchase, sale⟩).toOption,
    made.AllocatesExactly ⟨purchase, sale⟩ before.1))

/-- A lot that had room takes its part of a demand, all that it has room for if it leaves anything. -/
structure Grew (l : Ledger) (key : LotKey) (account : AccountId) (demand rest : Decimal) (lot : Lot) :
    Prop where
  key_eq : lot.key = key
  entry : ∃ e, l.entry? key.purchase = some e
  room : ¬ l.UsedUp key account
  nonneg : 0 ≤ rest
  less : rest < demand
  shares : lot.adjustedShares.units =
    (l.lotOrEmpty key).adjustedShares.units + (demand.units - rest.units)
  full : 0 < rest → UsedUp { l with lots := l.lots.put lot } key account

/-- What comes of offering a demand to a candidate: nothing, since nothing is wanted or the purchase is
used up, or a lot that grew. -/
inductive Offered (l : Ledger) (sale : EntryId) (account : AccountId) (demand : Decimal)
    (purchase : EntryId) : Decimal → Ledger → Prop
  | passed (h : 0 < demand → purchase ≠ sale → l.UsedUp ⟨purchase, sale⟩ account) :
      Offered l sale account demand purchase demand l
  | grew {rest : Decimal} {lot : Lot} (hself : purchase ≠ sale)
      (h : l.Grew ⟨purchase, sale⟩ account demand rest lot) :
      Offered l sale account demand purchase rest { l with lots := l.lots.put lot }

/-- It does not matter to what backs a lot whether it has to be made. -/
theorem Placed.withLot_backing (h : l.Placed sale account)
    (honce : l.TakesOnce ⟨purchase, sale⟩ account) (hdemand : 0 < demand)
    (hmade : l.withLot ⟨purchase, sale⟩ = .ok made)
    (hexact : made.AllocatesExactly ⟨purchase, sale⟩ demand) :
    ∃ seller total, seller.account = account ∧ made.owner? sale = some seller ∧
      made.lot? ⟨purchase, sale⟩ = some (l.lotOrEmpty ⟨purchase, sale⟩) ∧
      total.units = l.supply ⟨purchase, sale⟩ account ∧
      made.backing ⟨purchase, sale⟩ account = l.coveredBy (l.lotContext ⟨purchase, sale⟩) total := by
  obtain ⟨⟨e, he⟩, rfl⟩ := h.withLot_eq_ok hmade
  obtain ⟨seller, hseller, rfl⟩ := isBookedIn_eq_true.mp h.booked
  obtain ⟨buyer, hbuyer⟩ := h.owned purchase e he
  have hkey := l.lotOrEmpty_key ⟨purchase, sale⟩
  have hlot : lot? { l with lots := l.lots.put (l.lotOrEmpty ⟨purchase, sale⟩) } ⟨purchase, sale⟩ =
      some (l.lotOrEmpty ⟨purchase, sale⟩) := by rw [lot?_put, if_pos hkey.symm]
  have hsupplies := (hexact hdemand _ hlot seller hseller).1
  exact ⟨seller, _, rfl, hseller, hlot, honce.supply_put (congrArg LotKey.sale hkey),
    hsupplies.backing_eq hbuyer⟩

/-- An offer without rounding: the lot of the purchase and the sale takes its part of the demand, unless
there is nothing for it to take. -/
theorem Placed.offer_takes (h : l.Placed sale account) (hself : purchase ≠ sale) (hdemand : 0 < demand)
    (hexact : OffersExactly sale (demand, l) purchase)
    (hoffer : offer sale (demand, l) purchase = .ok (rest, l₁)) :
    ∃ made backed lot₁, l.withLot ⟨purchase, sale⟩ = .ok made ∧
      made.backing ⟨purchase, sale⟩ account = .ok backed ∧ lot₁.key = ⟨purchase, sale⟩ ∧
      lot₁.adjustedShares.units = (l.lotOrEmpty ⟨purchase, sale⟩).adjustedShares.units +
        (l.lotOrEmpty ⟨purchase, sale⟩).takes backed demand ∧
      rest.units = demand.units - (l.lotOrEmpty ⟨purchase, sale⟩).takes backed demand ∧
      l₁ = if (l.lotOrEmpty ⟨purchase, sale⟩).takes backed demand = 0 then l
        else { l with lots := l.lots.put lot₁ } := by
  have hzero : demand ≠ 0 := ne_zero_of_pos hdemand
  obtain ⟨made, after, hmade, hgrow, rfl⟩ := (offer_eq_ok_iff hzero hself).mp hoffer
  have hallocates : made.AllocatesExactly ⟨purchase, sale⟩ demand :=
    hexact hself made (toOption_eq_some_iff.mpr hmade)
  obtain ⟨-, rfl⟩ := h.withLot_eq_ok hmade
  obtain ⟨seller, hseller, rfl⟩ := isBookedIn_eq_true.mp h.booked
  have hkey := l.lotOrEmpty_key ⟨purchase, sale⟩
  have hundo := l.dropIfNew_put_lotOrEmpty ⟨purchase, sale⟩
  set key : LotKey := ⟨purchase, sale⟩
  set lot := l.lotOrEmpty key
  have hlot : lot? { l with lots := l.lots.put lot } key = some lot := by rw [lot?_put, if_pos hkey.symm]
  obtain ⟨backed, lot₁, hbacked, hallocated⟩ := hallocates.allocated hlot hseller hdemand hgrow
  have hafter : after = { l with lots := l.lots.put lot₁ } := by
    have hput := Register.put_put (hkey.trans hallocated.key_eq.symm) l.lots
    exact hallocated.after.trans (congrArg (fun lots => { l with lots }) hput)
  refine ⟨_, backed, lot₁, hmade, hbacked, hallocated.key_eq, hallocated.shares, hallocated.rest, ?_⟩
  have hrest := hallocated.rest
  by_cases hnone : lot.takes backed demand = 0
  · have hsame : ¬ rest < demand := by
      show ¬ rest.units < demand.units
      omega
    rw [if_neg hsame, if_pos hnone, hafter, hallocated.same hnone, hundo]
  · have hnonneg : 0 ≤ lot.takes backed demand := Lot.takes_nonneg (Int.le_of_lt hdemand)
    have hless : rest < demand := by
      show rest.units < demand.units
      omega
    rw [if_pos hless, if_neg hnone, hafter]

/-- Without rounding, an offer is passed over or the lot grows, and then either the whole demand is met or
the purchase is used up. -/
theorem Placed.offered (h : l.Placed sale account) (honce : l.TakesOnce ⟨purchase, sale⟩ account)
    (hdemand : 0 ≤ demand) (hexact : OffersExactly sale (demand, l) purchase)
    (hoffer : offer sale (demand, l) purchase = .ok (rest, l₁)) :
    l.Offered sale account demand purchase rest l₁ := by
  by_cases hidle : demand = 0 ∨ purchase = sale
  · rw [offer, if_pos hidle] at hoffer
    obtain ⟨rfl, rfl⟩ := Prod.mk.inj (Except.ok.inj hoffer)
    refine .passed fun hpos hself => ?_
    rcases hidle with rfl | rfl
    · exact absurd hpos (Int.lt_irrefl 0)
    · exact absurd rfl hself
  obtain ⟨hzero, hself⟩ := not_or.mp hidle
  have hpos : 0 < demand := pos_of_ne_zero hdemand hzero
  obtain ⟨made, backed, lot₁, hmade, hbacked, hkey, hshares, hrest, rfl⟩ :=
    h.offer_takes hself hpos hexact hoffer
  obtain ⟨he, -⟩ := h.withLot_eq_ok hmade
  obtain ⟨-, total, -, -, -, htotal, hbacking⟩ :=
    h.withLot_backing honce hpos hmade (hexact hself made (toOption_eq_some_iff.mpr hmade))
  rw [hbacking] at hbacked
  set key : LotKey := ⟨purchase, sale⟩
  set lot := l.lotOrEmpty key
  have hused : l.UsedUp key account ↔ backed ≤ lot.adjustedShares := usedUp_iff he htotal hbacked
  split
  · rename_i hnone
    -- a lot that takes nothing of something is one that has all that backs it
    obtain rfl : rest = demand := ext_units (by omega)
    exact .passed fun _ _ => hused.mpr ((Lot.takes_eq_zero_iff hpos).mp hnone)
  · rename_i hsome
    have hnonneg : 0 ≤ lot.takes backed demand := Lot.takes_nonneg hdemand
    have hle := lot.takes_le backed demand
    have htakes : lot.takes backed demand = demand.units - rest.units := by omega
    refine .grew hself ⟨hkey, he, ?_, ?_, ?_, htakes ▸ hshares, ?_⟩
    · exact fun hfull => hsome ((Lot.takes_eq_zero_iff hpos).mpr (hused.mp hfull))
    · show 0 ≤ rest.units
      omega
    · show rest.units < demand.units
      omega
    · -- as long as any demand is left, it was the backing that put an end to what the lot takes
      intro hleft
      change 0 < rest.units at hleft
      have hsupply := honce.supply_put (congrArg LotKey.sale hkey)
      refine (usedUp_iff (l := { l with lots := l.lots.put lot₁ }) he
        (htotal.trans hsupply.symm) hbacked).mpr ?_
      rw [lotOrEmpty_put, if_pos hkey.symm]
      show backed.units ≤ lot₁.adjustedShares.units
      rw [hshares]
      exact Lot.backed_le_of_takes_lt (by omega)

/-- There is always a lot to grow for a purchase that is there. -/
theorem Placed.exists_withLot (h : l.Placed sale account) (he : ∃ e, l.entry? purchase = some e) :
    ∃ made, l.withLot ⟨purchase, sale⟩ = .ok made := by
  obtain ⟨e, he⟩ := he
  obtain ⟨seller, hseller, -⟩ := isBookedIn_eq_true.mp h.booked
  obtain ⟨s, -, hs, -, -⟩ := owner?_eq_some.mp hseller
  unfold withLot insertLot
  simp only [he, hs, Option.isNone_some, Bool.false_eq_true, if_false]
  by_cases hlot : (l.lot? ⟨purchase, sale⟩).isSome = true
  · exact ⟨l, if_pos hlot⟩
  · exact ⟨_, (if_neg hlot).trans (if_neg hlot)⟩

/-- A purchase that is used up takes nothing of what it is offered. -/
theorem Placed.offer_of_usedUp (h : l.Placed sale account)
    (honce : l.TakesOnce ⟨purchase, sale⟩ account) (hdemand : 0 ≤ demand)
    (hused : purchase ≠ sale → l.UsedUp ⟨purchase, sale⟩ account)
    (hexact : OffersExactly sale (demand, l) purchase) :
    offer sale (demand, l) purchase = .ok (demand, l) := by
  by_cases hidle : demand = 0 ∨ purchase = sale
  · exact if_pos hidle
  obtain ⟨hzero, hself⟩ := not_or.mp hidle
  have hpos : 0 < demand := pos_of_ne_zero hdemand hzero
  have hused := hused hself
  obtain ⟨made, hmade⟩ := h.exists_withLot hused.entry
  have hallocates : made.AllocatesExactly ⟨purchase, sale⟩ demand :=
    hexact hself made (toOption_eq_some_iff.mpr hmade)
  obtain ⟨seller, total, rfl, hseller, hlot, htotal, hbacking⟩ :=
    h.withLot_backing honce hpos hmade hallocates
  obtain ⟨total', backed, htotal', hbacked, hle⟩ := hused.full
  rw [ext_units (htotal.trans htotal'.symm), hbacked] at hbacking
  have htakes := (hallocates hpos _ hlot seller hseller).2 backed (toOption_eq_some_iff.mpr hbacking)
  have hnone := (Lot.takes_eq_zero_iff hpos).mpr hle
  obtain ⟨rest, lot₁, after, hgrow, -, -⟩ := exists_allocated hlot hseller hpos hbacking htakes
    fun hsome => absurd hnone hsome
  -- whatever comes of the offer, no lot that is used up grows
  obtain ⟨left, hoffer⟩ : ∃ left, offer sale (demand, l) purchase = .ok (rest, left) :=
    ⟨_, (offer_eq_ok_iff hzero hself).mpr ⟨made, after, hmade, hgrow, rfl⟩⟩
  cases h.offered honce hdemand hexact hoffer with
  | passed => exact hoffer
  | grew _ hgrew => exact absurd hused hgrew.room

end Lotbook.Ledger
