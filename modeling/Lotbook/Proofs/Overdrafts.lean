/-
# Lotbook.Proofs.Overdrafts -- lots do not overdraw their purchases

When a lot grows, its shares as of the purchase date are derived again as a whole and rounded up, while
what it may grow to is rounded down. If a ratio of whole numbers lies in between and no number is too
large, both agree with the exact ratio, so that a lot that takes anything is left within what backs it
(`Ledger.exists_covering_le`). What its purchase has left is then not negative unless it was before
(`Ledger.allocateShares_within`). A lot that is owed more than a trillion shares as of the purchase date
is too large for that: what it is derived from may not back it (`Ledger.exists_not_backed`).
-/
import Lotbook.Proofs.Draws

namespace Lotbook

open Decimal

/-- What a lot takes has sixteen places if all that comes into it has. -/
theorem Lot.dvd_takes {lot : Lot} {backed demand : Decimal} (hlot : lot.adjustedShares.OnGrid 16)
    (hbacked : backed.OnGrid 16) (hdemand : demand.OnGrid 16) :
    (tenTo 12 : Int) ∣ lot.takes backed demand := by
  have hroom : (tenTo 12 : Int) ∣ backed.units - lot.adjustedShares.units := Int.dvd_sub hbacked hlot
  have hcases : lot.takes backed demand = demand.units ∨
      lot.takes backed demand = backed.units - lot.adjustedShares.units ∨
      lot.takes backed demand = 0 := by
    unfold takes
    omega
  rcases hcases with hall | hsome | hnone
  · exact hall ▸ hdemand
  · exact hsome ▸ hroom
  · exact hnone ▸ Int.dvd_zero _

namespace Ledger

variable {l : Ledger} {c : SplitContext} {r : SplitRatio} {m n : Nat} {p a x : Decimal}

/-! ## Conversions in a context -/

/-- The most shares that a small number of shares backs are few enough to be compared exactly. -/
theorem exists_coveredBy_le (hr : l.splitRatio c = .ok r) (hout : r.sharesOut.units = m * unit)
    (hin : r.sharesIn.units = n * unit) (hm : 1 ≤ m) (hn : 1 ≤ n) (hn_le : n ≤ tenTo 6)
    (hp : p.OnGrid 16) (hp_le : p.units.natAbs * m ≤ trillion) :
    ∃ capacity, l.coveredBy c p = .ok capacity ∧ capacity.OnGrid 16 ∧
      capacity.units.natAbs ≤ trillion ∧ capacity.units * n ≤ p.units * m := by
  obtain ⟨x, hx, hsmall, hbacked⟩ := SplitRatio.exists_apply_down hout hin hn
    (hn_le.trans (by decide)) hp hp_le
  refine ⟨_, coveredBy_of_ratio hr hx, ?_⟩
  by_cases hidentity : r.isIdentity = true
  · obtain rfl := SplitRatio.eq_of_isIdentity hout hin hidentity
    rw [if_pos hidentity]
    exact ⟨hp, (Nat.le_mul_of_pos_right _ hm).trans hp_le, Int.le_refl _⟩
  · rw [if_neg hidentity]
    exact ⟨onGrid_roundTo .., hsmall, hbacked⟩

/-- The fewest shares that back others are no more than any that do, at the places that shares are kept
at. -/
theorem exists_covering_le (hr : l.splitRatio c = .ok r) (hout : r.sharesOut.units = m * unit)
    (hin : r.sharesIn.units = n * unit) (hm : 1 ≤ m) (hn : 1 ≤ n) (hn_le : n ≤ tenTo 6)
    (hplaces : l.placesOver c ≤ 8) (ha_le : a.units.natAbs ≤ trillion)
    (hp : p.OnGrid (l.placesOver c)) (hback : a.units * n ≤ p.units * m) :
    ∃ shares, l.covering c a = .ok shares ∧ shares ≤ p := by
  -- ten places are left for a product of a trillion by a million
  have hfits : (a.units * n).natAbs * tenTo 10 ≤ maxMantissa * unit := by
    have hproduct := Nat.mul_le_mul ha_le hn_le
    rw [Int.natAbs_mul, Int.natAbs_natCast]
    exact (Nat.mul_le_mul_right (tenTo 10) hproduct).trans (by decide)
  obtain ⟨x, hx, hle⟩ := SplitRatio.exists_revert_up_le hout hin hm (hplaces.trans (by decide))
    (by decide) hfits
  refine ⟨_, covering_of_ratio hr hx, ?_⟩
  by_cases hidentity : r.isIdentity = true
  · obtain rfl := SplitRatio.eq_of_isIdentity hout hin hidentity
    rw [if_pos hidentity]
    exact Int.le_of_mul_le_mul_right hback (Int.natCast_pos.mpr hm)
  · rw [if_neg hidentity]
    exact hle p.units hp hback

/-! ## Growing within a purchase -/

section Within

variable {l₁ : Ledger} {key : LotKey} {account : AccountId} {lot : Lot} {backed demand remaining : Decimal}

/-- Nothing is rounded where a small lot takes of a small demand. -/
theorem takesExactly_of_small (hlot : lot.adjustedShares.OnGrid 16)
    (hlot_le : lot.adjustedShares.units.natAbs ≤ trillion) (hbacked : backed.OnGrid 16)
    (hbacked_le : backed.units.natAbs ≤ trillion) (hdemand : demand.OnGrid 16)
    (hdemand_le : demand.units.natAbs ≤ trillion) (hpos : 0 < demand) :
    TakesExactly lot backed demand := by
  change 0 < demand.units at hpos
  have hroom : (tenTo 12 : Int) ∣ backed.units - lot.adjustedShares.units := Int.dvd_sub hbacked hlot
  have htakes := Lot.dvd_takes hlot hbacked hdemand
  have hle := lot.takes_le backed demand
  have hnonneg : 0 ≤ lot.takes backed demand := Lot.takes_nonneg (Int.le_of_lt hpos)
  exact ⟨representable_of_dvd hroom (by omega),
    representable_of_dvd (Int.dvd_add hlot htakes) (by omega),
    representable_of_dvd (Int.dvd_sub hdemand htakes) (by omega)⟩

/-- A lot that has taken anything is derived from no more than what backs it. -/
theorem exists_resized_grown (hkey : lot.key = key) (hr : l.splitRatio (l.lotContext key) = .ok r)
    (hout : r.sharesOut.units = m * unit) (hin : r.sharesIn.units = n * unit) (hm : 1 ≤ m)
    (hm_le : m ≤ tenTo 12) (hn : 1 ≤ n) (hn_le : n ≤ tenTo 6)
    (hplaces : l.placesOver (l.lotContext key) ≤ 8) (hlot_grid : lot.adjustedShares.OnGrid 16)
    (hlot_le : lot.adjustedShares.units.natAbs ≤ trillion)
    (hlot_low : -(trillion : Int) ≤ lot.adjustedShares.units * n) (hbacked_grid : backed.OnGrid 16)
    (hbacked_le : backed.units.natAbs ≤ trillion) (hdemand : 0 < demand) (hdemand_grid : demand.OnGrid 16)
    (hp : p.OnGrid (l.placesOver (l.lotContext key))) (hp_le : p.units.natAbs * m ≤ trillion)
    (hback : backed.units * n ≤ p.units * m)
    (hgrown : Representable (lot.adjustedShares.units + lot.takes backed demand))
    (hsome : lot.takes backed demand ≠ 0) :
    ∃ lot₁, l.resized lot ⟨_, hgrown⟩ = .ok lot₁ ∧ lot₁.key = key ∧
      lot₁.adjustedShares = ⟨_, hgrown⟩ ∧ lot₁.purchaseShares ≤ p := by
  have hnonneg : 0 ≤ lot.takes backed demand := Lot.takes_nonneg (Int.le_of_lt hdemand)
  have htakes := lot.dvd_takes hlot_grid hbacked_grid hdemand_grid
  have hcapped : lot.adjustedShares.units + lot.takes backed demand ≤ backed.units := by
    change 0 < demand.units at hdemand
    unfold Lot.takes at hsome ⊢
    omega
  have hp_abs : |p.units * m| ≤ trillion := by
    rw [Int.abs_eq_natAbs, Int.natAbs_mul, Int.natAbs_natCast]
    exact Int.ofNat_le.mpr hp_le
  set a : Decimal := ⟨_, hgrown⟩
  have ha : a.OnGrid 16 := Int.dvd_add hlot_grid htakes
  have ha_le : a.units.natAbs ≤ trillion := by
    show (lot.adjustedShares.units + lot.takes backed demand).natAbs ≤ trillion
    omega
  -- the lot stays between what it had and what backs it, both of which are few shares exactly
  have hhigh : a.units * n ≤ p.units * m :=
    (Int.mul_le_mul_of_nonneg_right hcapped (Int.natCast_nonneg n)).trans hback
  have hlow : -(trillion : Int) ≤ a.units * n :=
    hlot_low.trans (Int.mul_le_mul_of_nonneg_right (Int.le_add_of_nonneg_right hnonneg)
      (Int.natCast_nonneg n))
  have hexact : a.units.natAbs * n ≤ trillion := by
    have hproduct : (a.units * n).natAbs ≤ trillion := by
      have := le_abs_self (p.units * m)
      omega
    rwa [Int.natAbs_mul, Int.natAbs_natCast] at hproduct
  obtain ⟨shares, hshares, hle⟩ := exists_covering_le hr hout hin hm hn hn_le hplaces ha_le hp hhigh
  have hbacks := mul_le_of_covering hr hout hin hm hplaces hshares ha hm_le hexact
  have hshares_le : shares.units.natAbs * m ≤ trillion := by
    have hproduct : (shares.units * m).natAbs ≤ trillion := by
      have := Int.mul_le_mul_of_nonneg_right hle (Int.natCast_nonneg m)
      have := le_abs_self (p.units * m)
      omega
    rwa [Int.natAbs_mul, Int.natAbs_natCast] at hproduct
  have hderived : l.lotPurchaseShares key a = .ok shares := by
    have hfew : n ≤ tenTo 7 * m := hn_le.trans ((by decide : tenTo 6 ≤ tenTo 7).trans
      (Nat.le_mul_of_pos_right _ hm))
    rcases lotPurchaseShares_cases hr hout hin hm hn (hn_le.trans (by decide)) hplaces hshares ha hexact
      hshares_le with hok | ⟨hmany, -⟩ | ⟨hmany, -⟩
    · exact hok
    · omega
    · omega
  refine ⟨⟨lot.purchase, lot.sale, shares, a⟩, ?_, hkey, rfl, hle⟩
  rw [resized, hkey, hderived]
  rfl

/-- At home, what a purchase has left for a sale is what it has left at all. -/
theorem remainingForAccount_of_isBookedIn {purchase : EntryId}
    (hhome : l.isBookedIn account purchase = true) :
    l.remainingForAccount purchase account = l.remainingShares purchase := by
  obtain ⟨t, ht, rfl⟩ := isBookedIn_eq_true.mp hhome
  simp only [remainingForAccount, ht, if_pos]

theorem LeavesExactly.exists_remaining {purchase : EntryId} (h : l.LeavesExactly purchase account)
    (hhome : l.isBookedIn account purchase = true) :
    ∃ d, l.remainingShares purchase = .ok d ∧ d.units = l.leftIn purchase account := by
  obtain ⟨t, ht, -⟩ := isBookedIn_eq_true.mp hhome
  rw [← remainingForAccount_of_isBookedIn hhome]
  exact h.exists_left ht

/-- The lot as it is derived with what it takes of a demand when so many shares are there for it. -/
def GrowsTo (l : Ledger) (key : LotKey) (lot : Lot) (p demand : Decimal) (lot₁ : Lot) : Prop :=
  ∃ capacity, l.coveredBy (l.lotContext key) p = .ok capacity ∧ lot.takes capacity demand ≠ 0 ∧
    lot₁.adjustedShares.units = lot.adjustedShares.units + lot.takes capacity demand ∧
    l.resized lot lot₁.adjustedShares = .ok lot₁

theorem GrowsTo.unique {lot₁ lot₂ : Lot} (h₁ : l.GrowsTo key lot p demand lot₁)
    (h₂ : l.GrowsTo key lot p demand lot₂) : lot₁ = lot₂ := by
  obtain ⟨capacity, hcapacity, -, hunits₁, hresized₁⟩ := h₁
  obtain ⟨capacity', hcapacity', -, hunits₂, hresized₂⟩ := h₂
  obtain rfl := Except.ok.inj (hcapacity.symm.trans hcapacity')
  rw [ext_units (hunits₁.trans hunits₂.symm), hresized₂] at hresized₁
  exact (Except.ok.inj hresized₁).symm

/-- A lot that keeps within what backs it leaves its purchase with no less than nothing. -/
theorem TakesOnce.exists_left_put {lot₁ : Lot} {purchase : Transaction} (h : l.TakesOnce key account)
    (hbuyer : l.owner? key.purchase = some purchase) (hkey : lot₁.key = key)
    (hexact : LeavesExactly { l with lots := l.lots.put lot₁ } key.purchase account)
    (hwithin : lot₁.purchaseShares.units ≤ l.supply key account) :
    ∃ left, remainingForAccount { l with lots := l.lots.put lot₁ } key.purchase account = .ok left ∧
      0 ≤ left := by
  obtain ⟨left, hleft, hunits⟩ := hexact.exists_left hbuyer
  refine ⟨left, hleft, ?_⟩
  -- all that may back the lot is as much as before
  have hsupply := h.supply_put (congrArg LotKey.sale hkey)
  rw [supply, lotOrEmpty_put, if_pos hkey.symm, ← hunits] at hsupply
  show 0 ≤ left.units
  omega

/-- A lot between a purchase and a sale of one account takes of a demand no more than its purchase backs,
and never overdraws it: what the purchase has left is not negative afterwards, unless it was before. This
holds across splits by a ratio of whole numbers, of shares at the places that they are kept at, for a lot
that is not owed more than a trillion shares before the splits. -/
theorem allocateShares_within (h : l.Reachable) (hplaces : l.settings.sharePlaces ≤ 8)
    (hlot : l.lot? key = some lot) (hpurchase : l.isBookedIn account key.purchase = true)
    (hsale : l.isBookedIn account key.sale = true) (hr : l.splitRatio (l.lotContext key) = .ok r)
    (hout : r.sharesOut.units = m * unit) (hin : r.sharesIn.units = n * unit)
    (hm : 1 ≤ m) (hm_le : m ≤ tenTo 12) (hn : 1 ≤ n) (hn_le : n ≤ tenTo 6)
    (hexact : l.LeavesExactly key.purchase account)
    (hremaining : l.remainingShares key.purchase = .ok remaining)
    (hp : p.units = lot.purchaseShares.units + remaining.units)
    (hp_grid : p.OnGrid (l.placesOver (l.lotContext key))) (hp_le : p.units.natAbs * m ≤ trillion)
    (hdemand : 0 < demand) (hdemand_grid : demand.OnGrid 16) (hdemand_le : demand.units.natAbs ≤ trillion)
    (hshares_grid : lot.adjustedShares.OnGrid 16)
    (hshares_le : lot.adjustedShares.units.natAbs ≤ trillion)
    (hshares_low : -(trillion : Int) ≤ lot.adjustedShares.units * n)
    (hexact₁ : ∀ lot₁, l.GrowsTo key lot p demand lot₁ →
      LeavesExactly { l with lots := l.lots.put lot₁ } key.purchase account) :
    ∃ (capacity rest left : Decimal) (lot₁ : Lot) (l₁ : Ledger),
      l.coveredBy (l.lotContext key) p = .ok capacity ∧ l.allocateShares key demand = .ok (rest, l₁) ∧
      l₁ = { l with lots := l.lots.put lot₁ } ∧ lot₁.key = key ∧ 0 ≤ rest ∧ rest ≤ demand ∧
      lot₁.adjustedShares.units = lot.adjustedShares.units + (demand.units - rest.units) ∧
      demand.units - rest.units ≤ Max.max 0 (capacity.units - lot.adjustedShares.units) ∧
      l₁.remainingShares key.purchase = .ok left ∧ remaining.min 0 ≤ left := by
  obtain ⟨sale, howner, rfl⟩ := isBookedIn_eq_true.mp hsale
  obtain ⟨purchase, hbuyer, -⟩ := isBookedIn_eq_true.mp hpurchase
  have hscale := h.scaled.placesOver_eq (l.lotContext key)
  have hkey : lot.key = key := key_of_lot hlot
  have honce : l.TakesOnce key sale.account := ⟨hsale, .inl hpurchase⟩
  -- what backs the lot is exact
  obtain ⟨d, hd, hleft⟩ := hexact.exists_remaining hpurchase
  obtain rfl := Except.ok.inj (hd.symm.trans hremaining)
  have hsupply : p.units = l.supply key sale.account := by
    rw [hp, hleft, supply, lotOrEmpty_of_lot? hlot]
  have hsupplies : l.SuppliesExactly key sale.account := ⟨hexact, hsupply ▸ p.representable⟩
  obtain ⟨capacity, hcapacity, hcapacity_grid, hcapacity_le, hback⟩ :=
    exists_coveredBy_le hr hout hin hm hn hn_le (hp_grid.mono 16 (by omega)) hp_le
  have hbacking : l.backing key sale.account = .ok capacity := by
    rw [hsupplies.backing_eq hbuyer, ← hcapacity]
    exact congrArg _ (ext_units hsupply.symm)
  -- so is what the lot takes, and that is within what backs it
  have htakes := takesExactly_of_small hshares_grid hshares_le hcapacity_grid hcapacity_le hdemand_grid
    hdemand_le hdemand
  have hkept (hsome : lot.takes capacity demand ≠ 0) : ∃ lot₁ remaining left,
      l.resized lot ⟨_, htakes.grown⟩ = .ok lot₁ ∧
      l.remainingForAccount key.purchase sale.account = .ok remaining ∧
      remainingForAccount { l with lots := l.lots.put lot₁ } key.purchase sale.account = .ok left ∧
      remaining.min 0 ≤ left := by
    obtain ⟨lot₁, hresized, hkey₁, hunits, hwithin⟩ := exists_resized_grown hkey hr hout hin hm hm_le hn hn_le
      (by omega) hshares_grid hshares_le hshares_low hcapacity_grid hcapacity_le hdemand hdemand_grid
      hp_grid hp_le hback htakes.grown hsome
    have hgrows : l.GrowsTo key lot p demand lot₁ :=
      ⟨capacity, hcapacity, hsome, congrArg units hunits, hunits ▸ hresized⟩
    obtain ⟨left, hleft₁, hnonneg⟩ :=
      honce.exists_left_put hbuyer hkey₁ (hexact₁ lot₁ hgrows) (hsupply ▸ hwithin)
    refine ⟨lot₁, d, left, hresized, (remainingForAccount_of_isBookedIn hpurchase).trans hd, hleft₁, ?_⟩
    show (d.min 0).units ≤ left.units
    rw [units_min]
    exact (Int.min_le_right ..).trans hnonneg
  obtain ⟨rest, lot₁, l₁, hallocate, hallocated, hresized⟩ :=
    exists_allocated hlot howner hdemand hbacking htakes hkept
  have htaken : lot.takes capacity demand = demand.units - rest.units := by
    have := hallocated.rest
    omega
  have hnonneg : 0 ≤ lot.takes capacity demand := Lot.takes_nonneg (Int.le_of_lt hdemand)
  have hle := lot.takes_le capacity demand
  have hroom : lot.takes capacity demand ≤ Max.max 0 (capacity.units - lot.adjustedShares.units) :=
    (Int.min_le_right ..).trans (max_comm ..).le
  obtain ⟨left, hleft₁, hstock⟩ :
      ∃ left, l₁.remainingShares key.purchase = .ok left ∧ d.min 0 ≤ left := by
    obtain rfl := hallocated.after
    by_cases hnone : lot.takes capacity demand = 0
    · have hput : l.lots.put lot = l.lots := Register.put_of_get? (by rwa [← hkey] at hlot)
      rw [hallocated.same hnone, hput]
      refine ⟨d, hd, ?_⟩
      show (d.min 0).units ≤ d.units
      rw [units_min]
      exact Int.min_le_left ..
    · obtain ⟨lot₂, remaining, left, hresized₂, hremaining₂, hleft₂, hstock⟩ := hkept hnone
      obtain rfl := Except.ok.inj (hresized₂.symm.trans (hresized hnone))
      obtain rfl := Except.ok.inj
        (hremaining₂.symm.trans ((remainingForAccount_of_isBookedIn hpurchase).trans hd))
      have hhome : isBookedIn { l with lots := l.lots.put lot₂ } sale.account key.purchase = true :=
        hpurchase
      exact ⟨left, (remainingForAccount_of_isBookedIn hhome).symm.trans hleft₂, hstock⟩
  refine ⟨capacity, rest, left, lot₁, l₁, hcapacity, hallocate, hallocated.after, hallocated.key_eq, ?_,
    ?_, htaken ▸ hallocated.shares, htaken ▸ hroom, hleft₁, hstock⟩
  · show 0 ≤ rest.units
    omega
  · show rest.units ≤ demand.units
    omega

/-- Of ten shares, three of which became one, three are given to a sale before another is matched. -/
def partlyGiven : List Edit :=
  [.addSecurity "S", .addSplit ⟨1⟩ ⟨.june 20, ⟨1, .whole 3⟩⟩,
    .addTransaction ⟨7⟩ (.june 19) (some ⟨1⟩), .addEntry ⟨2⟩ none (some (.whole 10)) none,
    .addTransaction ⟨7⟩ (.june 22) (some ⟨1⟩), .addEntry ⟨4⟩ none (some (-1)) none,
    .addEntry ⟨4⟩ none (some (-.whole 4)) none, .allocateLots ⟨5⟩ [⟨3⟩], .insertLot ⟨⟨3⟩, ⟨6⟩⟩]

/-- The other seven do not come to three, and all of them are given. -/
theorem allocateShares_within_partlyGiven :
    ∃ (l l₁ : Ledger) (lot : Lot) (r : SplitRatio) (capacity rest left : Decimal), l.Reachable ∧
      l.lot? ⟨⟨3⟩, ⟨6⟩⟩ = some lot ∧ l.splitRatio (l.lotContext ⟨⟨3⟩, ⟨6⟩⟩) = .ok r ∧
      r.sharesOut.units = (1 : Nat) * unit ∧ r.sharesIn.units = (3 : Nat) * unit ∧
      l.remainingShares ⟨3⟩ = .ok (.whole 7) ∧
      l.coveredBy (l.lotContext ⟨⟨3⟩, ⟨6⟩⟩) (.whole 7) = .ok capacity ∧
      l.allocateShares ⟨⟨3⟩, ⟨6⟩⟩ (.whole 4) = .ok (rest, l₁) ∧ 0 ≤ rest ∧
      (Decimal.whole 4).units - rest.units ≤ Max.max 0 (capacity.units - lot.adjustedShares.units) ∧
      l₁.remainingShares ⟨3⟩ = .ok left ∧ 0 ≤ left := by
  have hcheck : (((Ledger.new .standard).performAll partlyGiven).toOption.any fun l =>
      (l.lot? ⟨⟨3⟩, ⟨6⟩⟩).any fun lot =>
      (l.splitRatio (l.lotContext ⟨⟨3⟩, ⟨6⟩⟩)).toOption.any fun r : SplitRatio =>
      (l.coveredBy (l.lotContext ⟨⟨3⟩, ⟨6⟩⟩) (.whole 7)).toOption.any fun capacity =>
      (l.allocateShares ⟨⟨3⟩, ⟨6⟩⟩ (.whole 4)).toOption.any fun done =>
      (Ledger.lot? done.2 ⟨⟨3⟩, ⟨6⟩⟩).any fun lot₁ =>
        l.settings.sharePlaces ≤ 8 ∧ l.isBookedIn ⟨7⟩ ⟨3⟩ = true ∧ l.isBookedIn ⟨7⟩ ⟨6⟩ = true ∧
        r.sharesOut.units = (1 : Nat) * unit ∧ r.sharesIn.units = (3 : Nat) * unit ∧
        l.LeavesExactly ⟨3⟩ ⟨7⟩ ∧ (l.remainingShares ⟨3⟩).toOption = some (.whole 7) ∧
        lot.adjustedShares = 0 ∧ lot.purchaseShares = 0 ∧
        (.whole 7 : Decimal).OnGrid (l.placesOver (l.lotContext ⟨⟨3⟩, ⟨6⟩⟩)) ∧
        lot.takes capacity (.whole 4) ≠ 0 ∧
        lot₁.adjustedShares.units = lot.adjustedShares.units + lot.takes capacity (.whole 4) ∧
        l.resized lot lot₁.adjustedShares = .ok lot₁ ∧
        LeavesExactly { l with lots := l.lots.put lot₁ } ⟨3⟩ ⟨7⟩) = true := by
    decide +kernel
  obtain ⟨l, hl, hcheck⟩ := exists_ok_of_any hcheck
  obtain ⟨lot, hlot, hcheck⟩ := (Option.any_eq_true _ _).mp hcheck
  obtain ⟨r, hr, hcheck⟩ := exists_ok_of_any hcheck
  obtain ⟨capacity, hcapacity, hcheck⟩ := exists_ok_of_any hcheck
  obtain ⟨⟨rest, l₁⟩, hdone, hcheck⟩ := exists_ok_of_any hcheck
  obtain ⟨lot₁, -, hcheck⟩ := (Option.any_eq_true _ _).mp hcheck
  obtain ⟨hplaces, hpurchase, hsale, hout, hin, hexact, hremaining, hshares, hnone, hgrid, hsome, hunits,
    hresized, hexact₁⟩ := of_decide_eq_true hcheck
  have hreachable := (Reachable.new .standard).performAll hl
  have hremaining := toOption_eq_some_iff.mp hremaining
  have hgrows : l.GrowsTo ⟨⟨3⟩, ⟨6⟩⟩ lot (.whole 7) (.whole 4) lot₁ :=
    ⟨capacity, hcapacity, hsome, hunits, hresized⟩
  obtain ⟨capacity', rest', left, lot₂, l₁', hcapacity', hallocate, -, -, hrest, -, -, hle, hleft,
    hnonneg⟩ :=
    allocateShares_within hreachable hplaces hlot hpurchase hsale hr hout hin (by decide) (by decide)
      (by decide) (by decide) hexact hremaining (by rw [hnone, units_zero, Int.zero_add]) hgrid
      (by decide) (show (0 : Decimal) < .whole 4 by decide) (by decide) (by decide)
      (hshares ▸ onGrid_zero 16) (hshares ▸ by decide) (hshares ▸ by decide)
      fun lot₂ hgrows₂ => hgrows.unique hgrows₂ ▸ hexact₁
  obtain rfl := Except.ok.inj (hcapacity.symm.trans hcapacity')
  obtain ⟨rfl, rfl⟩ := Prod.mk.inj (Except.ok.inj (hdone.symm.trans hallocate))
  exact ⟨l, l₁, lot, r, capacity, rest, left, hreachable, hlot, hr, hout, hin, hremaining, hcapacity,
    hdone, hrest, hle, hleft, hnonneg⟩

/-- Almost a trillion shares owed, with all places that shares can have after splits. -/
def almostTrillionOwed : Decimal := .ofMantissa (-8999999999999999999955555556) 16 (by decide)

/-- A lot that is owed almost a trillion shares, of which there were nine for each before a split. -/
def owedBeforeSplit : List Edit :=
  [.addSecurity "S", .addSplit ⟨1⟩ ⟨.june 20, ⟨1, .whole 9⟩⟩,
    .addTransaction ⟨7⟩ (.june 19) (some ⟨1⟩), .addEntry ⟨2⟩ none (some 1) none,
    .addTransaction ⟨7⟩ (.june 21) (some ⟨1⟩), .addEntry ⟨4⟩ none (some (-1)) none,
    .insertLot ⟨⟨3⟩, ⟨5⟩⟩, .setLotShares ⟨⟨3⟩, ⟨5⟩⟩ almostTrillionOwed]

/-- Eight places of shares, as many as there can be. -/
def finestShares : Settings := { Settings.standard with sharePlaces := 8 }

/-- Allocating may stop at a contract although nothing is rounded: the nine trillion shares that it takes
before the split have fewer places than it takes to tell what the lot takes from nothing. -/
theorem exists_not_backed :
    ∃ (l : Ledger) (lot : Lot) (r : SplitRatio) (p shares taken remaining : Decimal), l.Reachable ∧
      l.settings.sharePlaces ≤ 8 ∧ l.lot? ⟨⟨3⟩, ⟨5⟩⟩ = some lot ∧ l.isBookedIn ⟨7⟩ ⟨3⟩ = true ∧
      l.isBookedIn ⟨7⟩ ⟨5⟩ = true ∧ l.splitRatio (l.lotContext ⟨⟨3⟩, ⟨5⟩⟩) = .ok r ∧
      r.sharesOut.units = (1 : Nat) * unit ∧ r.sharesIn.units = (9 : Nat) * unit ∧
      l.LeavesExactly ⟨3⟩ ⟨7⟩ ∧ l.remainingShares ⟨3⟩ = .ok remaining ∧
      p.units = lot.purchaseShares.units + remaining.units ∧
      p.OnGrid (l.placesOver (l.lotContext ⟨⟨3⟩, ⟨5⟩⟩)) ∧ p.units.natAbs * 9 ≤ trillion ∧
      lot.adjustedShares.OnGrid 16 ∧ lot.adjustedShares.units.natAbs ≤ trillion ∧
      shares.units = lot.adjustedShares.units + (Decimal.oneIn 16).units ∧
      l.covering (l.lotContext ⟨⟨3⟩, ⟨5⟩⟩) shares = .ok taken ∧
      LeavesExactly { l with lots := l.lots.put ⟨⟨3⟩, ⟨5⟩, taken, shares⟩ } ⟨3⟩ ⟨7⟩ ∧
      l.allocateShares ⟨⟨3⟩, ⟨5⟩⟩ (.oneIn 16) =
        .error (.broken (.backing ⟨⟨3⟩, ⟨5⟩⟩)) := by
  have hcheck : (((Ledger.new finestShares).performAll owedBeforeSplit).toOption.any fun l =>
      (l.lot? ⟨⟨3⟩, ⟨5⟩⟩).any fun lot =>
      (l.splitRatio (l.lotContext ⟨⟨3⟩, ⟨5⟩⟩)).toOption.any fun r : SplitRatio =>
      (l.remainingShares ⟨3⟩).toOption.any fun remaining =>
      (lot.purchaseShares.add remaining).toOption.any fun p =>
      (lot.adjustedShares.add (.oneIn 16)).toOption.any fun shares =>
      (l.covering (l.lotContext ⟨⟨3⟩, ⟨5⟩⟩) shares).toOption.any fun taken =>
        l.settings.sharePlaces ≤ 8 ∧ l.isBookedIn ⟨7⟩ ⟨3⟩ = true ∧ l.isBookedIn ⟨7⟩ ⟨5⟩ = true ∧
        r.sharesOut.units = (1 : Nat) * unit ∧ r.sharesIn.units = (9 : Nat) * unit ∧
        l.LeavesExactly ⟨3⟩ ⟨7⟩ ∧ p.units = lot.purchaseShares.units + remaining.units ∧
        p.OnGrid (l.placesOver (l.lotContext ⟨⟨3⟩, ⟨5⟩⟩)) ∧ p.units.natAbs * 9 ≤ trillion ∧
        lot.adjustedShares.OnGrid 16 ∧ lot.adjustedShares.units.natAbs ≤ trillion ∧
        shares.units = lot.adjustedShares.units + (Decimal.oneIn 16).units ∧
        LeavesExactly { l with lots := l.lots.put ⟨⟨3⟩, ⟨5⟩, taken, shares⟩ } ⟨3⟩ ⟨7⟩ ∧
        l.allocateShares ⟨⟨3⟩, ⟨5⟩⟩ (.oneIn 16) =
          .error (.broken (.backing ⟨⟨3⟩, ⟨5⟩⟩))) = true := by
    decide +kernel
  obtain ⟨l, hl, hcheck⟩ := exists_ok_of_any hcheck
  obtain ⟨lot, hlot, hcheck⟩ := (Option.any_eq_true _ _).mp hcheck
  obtain ⟨r, hr, hcheck⟩ := exists_ok_of_any hcheck
  obtain ⟨remaining, hremaining, hcheck⟩ := exists_ok_of_any hcheck
  obtain ⟨p, -, hcheck⟩ := exists_ok_of_any hcheck
  obtain ⟨shares, -, hcheck⟩ := exists_ok_of_any hcheck
  obtain ⟨taken, htaken, hcheck⟩ := exists_ok_of_any hcheck
  obtain ⟨hplaces, hpurchase, hsale, hout, hin, hexact, hp, hgrid, hle, hshares, hshares_le, hunits,
    hexact₁, hfault⟩ := of_decide_eq_true hcheck
  exact ⟨l, lot, r, p, shares, taken, remaining, (Reachable.new finestShares).performAll hl, hplaces,
    hlot, hpurchase, hsale, hr, hout, hin, hexact, hremaining, hp, hgrid, hle, hshares, hshares_le,
    hunits, htaken, hexact₁, hfault⟩

end Within

end Ledger

end Lotbook
