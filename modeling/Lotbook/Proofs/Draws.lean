/-
# Lotbook.Proofs.Draws -- what a lot may draw on

A lot may keep the shares that it has and take what its purchase has left for its sale. Both together do
not depend on how large the lot is, since what it takes is taken off what is left, once
(`Ledger.TakesOnce.supply_put`). So it does not matter whether a demand is allocated to a lot at once or
in two parts (`Ledger.allocateShares_additive`). There is one exception: a transfer within an account, of
shares that were bought in another, adds to what is left there as much as it takes.
-/
import Lotbook.Proofs.Holdings

namespace Lotbook

open Decimal

namespace Lot

variable {lot lot₁ : Lot} {backed demand d₁ d₂ : Decimal}

theorem eq_of_key_eq (hkey : lot.key = lot₁.key) (hpurchase : lot.purchaseShares = lot₁.purchaseShares)
    (hadjusted : lot.adjustedShares = lot₁.adjustedShares) : lot = lot₁ := by
  cases lot
  cases lot₁
  cases hkey
  cases hpurchase
  cases hadjusted
  rfl

/-- What a lot takes of a demand when so many shares back it: all that it has room for. -/
def takes (lot : Lot) (backed demand : Decimal) : Int :=
  Min.min demand.units (Max.max (backed.units - lot.adjustedShares.units) 0)

theorem takes_nonneg (hdemand : 0 ≤ demand) : 0 ≤ lot.takes backed demand := by
  change 0 ≤ demand.units at hdemand
  unfold takes
  omega

theorem takes_le (lot : Lot) (backed demand : Decimal) : lot.takes backed demand ≤ demand.units :=
  Int.min_le_left ..

/-- A lot takes nothing only if it has all the shares that back it. -/
theorem takes_eq_zero_iff (hdemand : 0 < demand) :
    lot.takes backed demand = 0 ↔ backed ≤ lot.adjustedShares := by
  change 0 < demand.units at hdemand
  change _ ↔ backed.units ≤ lot.adjustedShares.units
  unfold takes
  omega

/-- It leaves some of a demand only if it then has all of them. -/
theorem backed_le_of_takes_lt (h : lot.takes backed demand < demand.units) :
    backed.units ≤ lot.adjustedShares.units + lot.takes backed demand := by
  unfold takes at h ⊢
  omega

/-- What a lot takes of a demand it takes of any two parts of it, one after the other. -/
theorem takes_add (hd₁ : 0 ≤ d₁) (hd₂ : 0 ≤ d₂) (hd : demand.units = d₁.units + d₂.units)
    (hlot : lot₁.adjustedShares.units = lot.adjustedShares.units + lot.takes backed d₁) :
    lot.takes backed demand = lot.takes backed d₁ + lot₁.takes backed d₂ := by
  change 0 ≤ d₁.units at hd₁
  change 0 ≤ d₂.units at hd₂
  unfold takes at hlot ⊢
  omega

end Lot

namespace Ledger

variable {l l₁ l₂ : Ledger} {key : LotKey} {account : AccountId} {demand : Decimal}

/-! ## What a purchase has left -/

/-- The lot of a purchase and a sale. One that is not there has no shares. -/
def lotOrEmpty (l : Ledger) (key : LotKey) : Lot := (l.lot? key).getD (.empty key)

theorem lotOrEmpty_of_lot? {lot : Lot} (h : l.lot? key = some lot) : l.lotOrEmpty key = lot := by
  rw [lotOrEmpty, h, Option.getD_some]

theorem lotOrEmpty_put (l : Ledger) (lot : Lot) (k : LotKey) :
    lotOrEmpty { l with lots := l.lots.put lot } k = if k = lot.key then lot else l.lotOrEmpty k := by
  unfold lotOrEmpty
  rw [lot?_put]
  split <;> rfl

/-- What a purchase has left in an account, not rounded: at home what no lot takes, elsewhere what was
moved there and is not booked out of there again. -/
def leftIn (l : Ledger) (purchase : EntryId) (account : AccountId) : Int :=
  if l.isBookedIn account purchase then
    ((l.entry? purchase).elim 0 Entry.quantityOrZero).units - l.takenBy purchase fun _ => true
  else l.takenBy purchase (l.isMovedTo account) - l.takenBy purchase (l.isSoldIn account)

/-- Whether nothing is rounded when it is computed what a purchase has left in an account. -/
def LeavesExactly (l : Ledger) (purchase : EntryId) (account : AccountId) : Prop :=
  if l.isBookedIn account purchase then
    (∀ u ∈ partialSums ((l.lotsByPurchase purchase).map Lot.purchaseShares), Representable u) ∧
      Representable (l.leftIn purchase account)
  else ∀ u ∈ partialSums ((l.lotsByPurchase purchase).flatMap (l.moves account)), Representable u

instance (l : Ledger) (purchase : EntryId) (account : AccountId) :
    Decidable (l.LeavesExactly purchase account) :=
  inferInstanceAs (Decidable (if l.isBookedIn account purchase then
    (∀ u ∈ partialSums ((l.lotsByPurchase purchase).map Lot.purchaseShares), Representable u) ∧
      Representable (l.leftIn purchase account)
  else ∀ u ∈ partialSums ((l.lotsByPurchase purchase).flatMap (l.moves account)), Representable u))

theorem isBookedIn_eq_true {id : EntryId} :
    l.isBookedIn account id = true ↔ ∃ t, l.owner? id = some t ∧ t.account = account := by
  unfold isBookedIn
  cases l.owner? id <;> simp

theorem LeavesExactly.exists_left {purchase : EntryId} {t : Transaction}
    (h : l.LeavesExactly purchase account) (ht : l.owner? purchase = some t) :
    ∃ d, l.remainingForAccount purchase account = .ok d ∧ d.units = l.leftIn purchase account := by
  obtain ⟨e, -, he, -, -⟩ := owner?_eq_some.mp ht
  obtain rfl := id_of_entry he
  unfold LeavesExactly leftIn at h
  unfold leftIn
  split at h
  · rename_i hhome
    obtain ⟨t', ht', rfl⟩ := isBookedIn_eq_true.mp hhome
    obtain rfl := Option.some.inj (ht.symm.trans ht')
    rw [if_pos hhome, he]
    rw [he] at h
    have hcounts : l.CountsExactly e ∅ := ⟨h.1, h.2, fun a ha => absurd ha (Finset.notMem_empty a)⟩
    exact hcounts.home he ht
  · rename_i haway
    have hother : t.account ≠ account := fun heq => haway (isBookedIn_eq_true.mpr ⟨t, ht, heq⟩)
    rw [if_neg haway]
    obtain ⟨d, hd, hunits⟩ := foldlM_movedShares_exact (a := 0) h
    refine ⟨d, ?_, ?_⟩
    · simp only [remainingForAccount, ht, if_neg hother, hd]
    · rw [hunits, sum_moves, units_zero, Int.zero_add]

/-! ## What is drawn on -/

/-- All that may back a lot, not rounded: its own shares, and what its purchase has left in the account of
its sale. -/
def supply (l : Ledger) (key : LotKey) (account : AccountId) : Int :=
  (l.lotOrEmpty key).purchaseShares.units + l.leftIn key.purchase account

/-- Whether nothing is rounded when it is computed what may back a lot. -/
structure SuppliesExactly (l : Ledger) (key : LotKey) (account : AccountId) : Prop where
  left : l.LeavesExactly key.purchase account
  total : Representable (l.supply key account)

instance (l : Ledger) (key : LotKey) (account : AccountId) :
    Decidable (l.SuppliesExactly key account) :=
  decidable_of_iff (l.LeavesExactly key.purchase account ∧ Representable (l.supply key account))
    ⟨fun ⟨left, total⟩ => ⟨left, total⟩, fun ⟨left, total⟩ => ⟨left, total⟩⟩

/-- The most shares as of the sale date that a lot may have: as many as its own shares and what its
purchase has left back after the splits in between. -/
def backing (l : Ledger) (key : LotKey) (account : AccountId) : Except ArithmeticFault Decimal := do
  let remaining ← l.remainingForAccount key.purchase account
  l.coveredBy (l.lotContext key) (← (l.lotOrEmpty key).purchaseShares.add remaining)

theorem SuppliesExactly.backing_eq {t : Transaction} (h : l.SuppliesExactly key account)
    (ht : l.owner? key.purchase = some t) :
    l.backing key account = l.coveredBy (l.lotContext key) ⟨l.supply key account, h.total⟩ := by
  obtain ⟨remaining, hremaining, hunits⟩ := h.left.exists_left ht
  have hsum : (l.lotOrEmpty key).purchaseShares.units + remaining.units = l.supply key account := by
    rw [hunits, supply]
  have htotal := add_eq_ok (hsum ▸ h.total)
  simp only [backing, hremaining, htotal, bind, Except.bind]
  exact congrArg _ (ext_units hsum)

/-- Whether what a lot takes is taken off what its purchase has left in the account of its sale, once. It
would be given back there by a transfer within the account. -/
structure TakesOnce (l : Ledger) (key : LotKey) (account : AccountId) : Prop where
  booked : l.isBookedIn account key.sale = true
  outward : l.isBookedIn account key.purchase = true ∨
    (l.otherLeg? key.sale).any (l.isBookedIn account) = false

theorem takenBy_put (l : Ledger) (purchase : EntryId) (which : Lot → Bool) (lot : Lot)
    (hwhich : ∀ x y : Lot, x.sale = y.sale → which x = which y) :
    takenBy { l with lots := l.lots.put lot } purchase which = l.takenBy purchase which +
      if lot.purchase = purchase ∧ which lot then
        lot.purchaseShares.units - (l.lotOrEmpty lot.key).purchaseShares.units
      else 0 := by
  have hput := l.lotSum_put
    (fun x => if x.purchase = purchase ∧ which x then x.purchaseShares.units else 0) lot
  -- the lot that was there counts in the sum if the one that replaces it does
  have hold : ((l.lot? lot.key).map fun x : Lot =>
      if x.purchase = purchase ∧ which x then x.purchaseShares.units else 0).getD 0 =
        if lot.purchase = purchase ∧ which lot then (l.lotOrEmpty lot.key).purchaseShares.units
        else 0 := by
    unfold lotOrEmpty
    cases hlot : l.lot? lot.key with
    | none => split <;> rfl
    | some x =>
      have hkey : x.key = lot.key := key_of_lot hlot
      have hpurchase : x.purchase = lot.purchase := congrArg LotKey.purchase hkey
      have hsame : which x = which lot := hwhich x lot (congrArg LotKey.sale hkey)
      rw [Option.map_some, Option.getD_some, Option.getD_some, hpurchase, hsame]
  rw [hold] at hput
  unfold takenBy
  by_cases hcounts : lot.purchase = purchase ∧ which lot
  · simp only [if_pos hcounts] at hput ⊢
    omega
  · simp only [if_neg hcounts] at hput ⊢
    omega

/-- What a lot takes more is taken off what its purchase has left. -/
theorem TakesOnce.leftIn_put (h : l.TakesOnce key account) {lot : Lot} (hsale : lot.sale = key.sale) :
    leftIn { l with lots := l.lots.put lot } key.purchase account = l.leftIn key.purchase account -
      if lot.purchase = key.purchase then
        lot.purchaseShares.units - (l.lotOrEmpty lot.key).purchaseShares.units
      else 0 := by
  have hbooked : l.isSoldIn account lot = true := by
    rw [isSoldIn, hsale]
    exact h.booked
  unfold leftIn
  change (if l.isBookedIn account key.purchase then
    ((l.entry? key.purchase).elim 0 Entry.quantityOrZero).units - _ else _) = _
  split
  · rw [takenBy_put l key.purchase (fun _ => true) lot fun _ _ _ => rfl]
    simp only [and_true]
    omega
  · rename_i haway
    have hkept : l.isMovedTo account lot = false := by
      rw [isMovedTo, hsale]
      exact h.outward.resolve_left haway
    have hmoved := l.takenBy_put key.purchase (l.isMovedTo account) lot
      fun x y hxy => by unfold isMovedTo; rw [hxy]
    have hsold := l.takenBy_put key.purchase (l.isSoldIn account) lot
      fun x y hxy => by unfold isSoldIn; rw [hxy]
    rw [hkept] at hmoved
    rw [hbooked] at hsold
    simp only [Bool.false_eq_true, and_false, if_false, and_true] at hmoved hsold
    change takenBy { l with lots := l.lots.put lot } key.purchase (l.isMovedTo account) -
      takenBy { l with lots := l.lots.put lot } key.purchase (l.isSoldIn account) = _
    omega

/-- However large the lots of a sale are, as much may back each of them. -/
theorem TakesOnce.supply_put (h : l.TakesOnce key account) {lot : Lot} (hsale : lot.sale = key.sale) :
    supply { l with lots := l.lots.put lot } key account = l.supply key account := by
  unfold supply
  rw [h.leftIn_put hsale, lotOrEmpty_put]
  by_cases hkey : key = lot.key
  · subst hkey
    have hpurchase : lot.purchase = lot.key.purchase := rfl
    rw [if_pos rfl, if_pos hpurchase]
    omega
  · have hother : lot.purchase ≠ key.purchase := by
      intro hpurchase
      exact hkey (by rw [Lot.key, hpurchase, hsale])
    rw [if_neg hkey, if_neg hother]
    omega

/-! ## What is taken -/

/-- Nothing is rounded when a lot that so many shares back takes its part of a demand. -/
structure TakesExactly (lot : Lot) (backed demand : Decimal) : Prop where
  room : Representable (backed.units - lot.adjustedShares.units)
  grown : Representable (lot.adjustedShares.units + lot.takes backed demand)
  rest : Representable (demand.units - lot.takes backed demand)

instance (lot : Lot) (backed demand : Decimal) : Decidable (TakesExactly lot backed demand) :=
  decidable_of_iff (Representable (backed.units - lot.adjustedShares.units) ∧
      Representable (lot.adjustedShares.units + lot.takes backed demand) ∧
      Representable (demand.units - lot.takes backed demand))
    ⟨fun ⟨room, grown, rest⟩ => ⟨room, grown, rest⟩, fun ⟨room, grown, rest⟩ => ⟨room, grown, rest⟩⟩

/-- Whether no sum and no difference is rounded when a demand is allocated to a lot. -/
def AllocatesExactly (l : Ledger) (key : LotKey) (demand : Decimal) : Prop :=
  0 < demand → ∀ lot ∈ l.lot? key, ∀ sale ∈ l.owner? key.sale,
    l.SuppliesExactly key sale.account ∧
      ∀ backed ∈ (l.backing key sale.account).toOption, TakesExactly lot backed demand

instance (l : Ledger) (key : LotKey) (demand : Decimal) : Decidable (l.AllocatesExactly key demand) :=
  inferInstanceAs (Decidable (0 < demand → ∀ lot ∈ l.lot? key, ∀ sale ∈ l.owner? key.sale,
    l.SuppliesExactly key sale.account ∧
      ∀ backed ∈ (l.backing key sale.account).toOption, TakesExactly lot backed demand))

section Allocating

variable {lot : Lot} {sale : Transaction} {backed rest : Decimal}

theorem exists_backing (hlot : l.lot? key = some lot) (hsale : l.owner? key.sale = some sale)
    (hdemand : 0 < demand) (h : l.allocateShares key demand = .ok (rest, l₁)) :
    ∃ backed, l.backing key sale.account = .ok backed := by
  have hpos : ¬ demand ≤ 0 := Int.not_le.mpr hdemand
  simp only [allocateShares, if_neg hpos, hlot, hsale, bind_eq_ok_iff] at h
  obtain ⟨remaining, hremaining, total, htotal, backed, hbacked, -⟩ := h
  refine ⟨backed, ?_⟩
  simp only [backing, hremaining, lotOrEmpty_of_lot? hlot, htotal, bind, Except.bind]
  exact hbacked

/-- What may back a lot leaves it room. -/
theorem exists_headroom (hlot : l.lot? key = some lot) (hsale : l.owner? key.sale = some sale)
    (hbacked : l.backing key sale.account = .ok backed)
    (hroom : Representable (backed.units - lot.adjustedShares.units)) :
    ∃ h : Headroom l key, h.lot = lot ∧ h.sale = sale ∧ h.backed = backed ∧
      h.room.units = backed.units - lot.adjustedShares.units := by
  simp only [backing, bind_eq_ok_iff, lotOrEmpty_of_lot? hlot] at hbacked
  obtain ⟨remaining, hremaining, total, htotal, hbacked⟩ := hbacked
  exact ⟨⟨lot, sale, remaining, total, backed, _, hlot, hsale, hremaining, htotal, hbacked,
    sub_eq_ok hroom⟩, rfl, rfl, rfl, rfl⟩

/-- What comes of allocating a demand to a lot, if nothing is rounded: a lot in its place that covers as
much of the sale more as it took of the demand. -/
structure Allocated (l : Ledger) (key : LotKey) (backed demand : Decimal) (lot lot₁ : Lot)
    (rest : Decimal) (l₁ : Ledger) : Prop where
  after : l₁ = { l with lots := l.lots.put lot₁ }
  key_eq : lot₁.key = key
  shares : lot₁.adjustedShares.units = lot.adjustedShares.units + lot.takes backed demand
  rest : rest.units = demand.units - lot.takes backed demand
  same : lot.takes backed demand = 0 → lot₁ = lot
  covers : lot.takes backed demand ≠ 0 →
    l.covering (l.lotContext key) lot₁.adjustedShares = .ok lot₁.purchaseShares

/-- A lot without room takes nothing. -/
theorem allocated_of_takes_eq_zero (hlot : l.lot? key = some lot)
    (hnone : lot.takes backed demand = 0) : Allocated l key backed demand lot lot demand l where
  after := by
    have hput : l.lots.put lot = l.lots := Register.put_of_get? (by rwa [← key_of_lot hlot] at hlot)
    rw [hput]
  key_eq := key_of_lot hlot
  shares := by omega
  rest := by omega
  same _ := rfl
  covers hsome := absurd hnone hsome

namespace Growth

variable (g : Growth l key demand)

/-- If nothing is rounded, a lot that grows takes of the demand all that it has room for. -/
theorem taken_units (hexact : TakesExactly g.lot g.backed demand) :
    g.taken.units = g.lot.takes g.backed demand := by
  have hroom : g.room = ⟨_, hexact.room⟩ := Except.ok.inj (g.room_eq.symm.trans (sub_eq_ok hexact.room))
  have hpos : 0 < g.room.units := g.room_pos
  rw [taken, units_min, Lot.takes]
  rw [hroom] at hpos ⊢
  exact congrArg _ (Int.max_eq_left hpos.le).symm

theorem allocated (hexact : TakesExactly g.lot g.backed demand) (hrest : demand.sub g.taken = .ok rest) :
    Allocated l key g.backed demand g.lot g.grown rest g.after where
  after := rfl
  key_eq := g.grown_key
  shares := by
    have htaken := g.taken_units hexact
    obtain ⟨shares, hshares, hunits⟩ := add_exact (htaken ▸ hexact.grown)
    obtain rfl := Except.ok.inj (hshares.symm.trans g.adjustedShares_eq)
    exact hunits.trans (congrArg _ htaken)
  rest := by
    have htaken := g.taken_units hexact
    obtain ⟨rest', hrest', hunits⟩ := sub_exact (htaken ▸ hexact.rest)
    obtain rfl := Except.ok.inj (hrest'.symm.trans hrest)
    exact hunits.trans (congrArg _ htaken)
  same hnone := by
    have hpos : 0 < g.taken.units := g.taken_pos
    have htaken := g.taken_units hexact
    omega
  covers _ := g.purchaseShares_eq

end Growth

/-- Room for none of the demand is room for nothing. -/
theorem Headroom.room_nonpos_iff (h : Headroom l key) (hdemand : 0 < demand)
    (hunits : h.room.units = h.backed.units - h.lot.adjustedShares.units) :
    h.room ≤ 0 ↔ h.lot.takes h.backed demand = 0 := by
  rw [Lot.takes_eq_zero_iff hdemand]
  show h.room.units ≤ 0 ↔ h.backed.units ≤ h.lot.adjustedShares.units
  omega

/-- A lot takes its part of a demand if nothing is rounded and its contracts are kept. -/
theorem exists_allocated (hlot : l.lot? key = some lot) (hsale : l.owner? key.sale = some sale)
    (hdemand : 0 < demand) (hbacked : l.backing key sale.account = .ok backed)
    (hexact : TakesExactly lot backed demand)
    (hkept : lot.takes backed demand ≠ 0 → ∃ lot₁ remaining left,
      l.resized lot ⟨_, hexact.grown⟩ = .ok lot₁ ∧
      l.remainingForAccount key.purchase sale.account = .ok remaining ∧
      remainingForAccount { l with lots := l.lots.put lot₁ } key.purchase sale.account = .ok left ∧
      remaining.min 0 ≤ left) :
    ∃ rest lot₁ l₁, l.allocateShares key demand = .ok (rest, l₁) ∧
      Allocated l key backed demand lot lot₁ rest l₁ ∧
      (lot.takes backed demand ≠ 0 → l.resized lot ⟨_, hexact.grown⟩ = .ok lot₁) := by
  obtain ⟨h, rfl, rfl, rfl, hunits⟩ := exists_headroom hlot hsale hbacked hexact.room
  by_cases hnone : h.lot.takes h.backed demand = 0
  · have hfull := (h.room_nonpos_iff hdemand hunits).mpr hnone
    exact ⟨demand, h.lot, l, h.allocateShares_of_full hdemand hfull,
      allocated_of_takes_eq_zero hlot hnone, fun hsome => absurd hnone hsome⟩
  · obtain ⟨lot₁, remaining, left, hresized, hremaining, hleft, hstock⟩ := hkept hnone
    obtain rfl := Except.ok.inj (hremaining.symm.trans h.remaining_eq)
    obtain ⟨p, hp, rfl⟩ := resized_eq_ok hresized
    rw [key_of_lot hlot] at hp
    have hroom : 0 < h.room := Int.not_le.mp (mt (h.room_nonpos_iff hdemand hunits).mp hnone)
    have htaken : (demand.min h.room).units = h.lot.takes h.backed demand := by
      rw [units_min, hunits, Lot.takes]
      change 0 < h.room.units at hroom
      exact congrArg _ (Int.max_eq_left (by omega)).symm
    have hgrown : h.lot.adjustedShares.add (demand.min h.room) = .ok ⟨_, hexact.grown⟩ := by
      obtain ⟨shares, hshares, hunits⟩ := add_exact (htaken ▸ hexact.grown)
      rw [hshares]
      exact congrArg _ (ext_units (by rw [hunits, htaken]))
    let g : Growth l key demand :=
      ⟨h, ⟨_, hexact.grown⟩, p, hroom, hdemand, hgrown, covering_of_lotPurchaseShares hp⟩
    obtain ⟨rest, hrest, -⟩ := sub_exact (a := demand) (b := g.taken) (htaken ▸ hexact.rest)
    refine ⟨rest, g.grown, g.after, ?_, g.allocated hexact hrest, fun _ => hresized⟩
    rw [g.allocateShares_eq]
    exact bind_eq_ok_iff.mpr ⟨p, hp, bind_eq_ok_iff.mpr ⟨left, hleft, bind_eq_ok_iff.mpr
      ⟨(), LotContract.check_of_kept hstock, bind_eq_ok_iff.mpr ⟨rest, hrest, rfl⟩⟩⟩⟩

theorem AllocatesExactly.allocated (hexact : l.AllocatesExactly key demand)
    (hlot : l.lot? key = some lot) (hsale : l.owner? key.sale = some sale) (hdemand : 0 < demand)
    (h : l.allocateShares key demand = .ok (rest, l₁)) :
    ∃ backed lot₁, l.backing key sale.account = .ok backed ∧
      Allocated l key backed demand lot lot₁ rest l₁ := by
  obtain ⟨backed, hbacked⟩ := exists_backing hlot hsale hdemand h
  have htakes := (hexact hdemand lot hlot sale hsale).2 backed (toOption_eq_some_iff.mpr hbacked)
  obtain ⟨room, rfl, rfl, rfl, hunits⟩ := exists_headroom hlot hsale hbacked htakes.room
  rcases allocateShares_eq_ok h with ⟨hfull, rfl, rfl⟩ | ⟨g, -, hrest, rfl⟩
  · have hnone := (room.room_nonpos_iff hdemand hunits).mp (hfull hdemand room)
    have hmax : demand.max 0 = demand := if_neg (Int.not_le.mpr hdemand)
    rw [hmax]
    exact ⟨room.backed, room.lot, hbacked, allocated_of_takes_eq_zero hlot hnone⟩
  · obtain rfl := room.unique g.toHeadroom
    exact ⟨g.backed, g.grown, hbacked, g.allocated htakes hrest⟩

end Allocating

/-! ## Allocating in parts -/

/-- Whether a sale is a transfer within its own account. -/
def isInternal (l : Ledger) (sale : EntryId) : Bool :=
  (l.owner? sale).any fun t => (l.otherLeg? sale).any (l.isBookedIn t.account)

theorem takesOnce_of_not_internal {sale : Transaction} (hsale : l.owner? key.sale = some sale)
    (h : l.isInternal key.sale = false) : l.TakesOnce key sale.account where
  booked := isBookedIn_eq_true.mpr ⟨sale, hsale, rfl⟩
  outward := by
    rw [isInternal, hsale] at h
    exact .inr h

/-- As many shares back a lot however large it is. -/
theorem TakesOnce.backing_put {purchase : Transaction} (h : l.TakesOnce key account)
    (hpurchase : l.owner? key.purchase = some purchase) {lot : Lot} (hsale : lot.sale = key.sale)
    (hexact : l.SuppliesExactly key account)
    (hexact₁ : SuppliesExactly { l with lots := l.lots.put lot } key account) :
    backing { l with lots := l.lots.put lot } key account = l.backing key account := by
  rw [hexact.backing_eq hpurchase, hexact₁.backing_eq hpurchase]
  exact congrArg (l.coveredBy (l.lotContext key)) (ext_units (h.supply_put hsale))

section Parts

variable {lot lot₁ lot₂ : Lot} {backed d₁ d₂ d rest₁ rest₂ rest : Decimal} {l' : Ledger}

/-- Allocating is determined by what backs the lot. -/
theorem Allocated.unique (h₁ : Allocated l key backed demand lot lot₁ rest₁ l₁)
    (h₂ : Allocated l key backed demand lot lot₂ rest₂ l₂) : l₁ = l₂ ∧ rest₁ = rest₂ := by
  have hlots : lot₁ = lot₂ := by
    by_cases hnone : lot.takes backed demand = 0
    · rw [h₁.same hnone, h₂.same hnone]
    · have hshares := ext_units (h₁.shares.trans h₂.shares.symm)
      have hcovers := h₁.covers hnone
      rw [hshares, h₂.covers hnone] at hcovers
      exact Lot.eq_of_key_eq (h₁.key_eq.trans h₂.key_eq.symm) (Except.ok.inj hcovers).symm hshares
  exact ⟨by rw [h₁.after, h₂.after, hlots], ext_units (h₁.rest.trans h₂.rest.symm)⟩

/-- Allocating one demand after another leaves the lot that allocating both at once leaves. -/
theorem Allocated.trans (h₁ : Allocated l key backed d₁ lot lot₁ rest₁ l₁)
    (h₂ : Allocated l₁ key backed d₂ lot₁ lot₂ rest₂ l₂) (hd₁ : 0 ≤ d₁) (hd₂ : 0 ≤ d₂)
    (hd : d.units = d₁.units + d₂.units) (hrest : rest.units = d.units - lot.takes backed d) :
    Allocated l key backed d lot lot₂ rest l₂ := by
  have htakes := Lot.takes_add hd₁ hd₂ hd h₁.shares
  have hnonneg₁ : 0 ≤ lot.takes backed d₁ := Lot.takes_nonneg hd₁
  have hnonneg₂ : 0 ≤ lot₁.takes backed d₂ := Lot.takes_nonneg hd₂
  have hshares₁ := h₁.shares
  have hshares₂ := h₂.shares
  have hafter := h₂.after
  rw [h₁.after] at hafter
  refine ⟨?_, h₂.key_eq, by omega, hrest, fun hnone => ?_, fun hsome => ?_⟩
  · have hput := Register.put_put (h₁.key_eq.trans h₂.key_eq.symm) l.lots
    exact hafter.trans (congrArg (fun lots => { l with lots }) hput)
  · rw [h₂.same (by omega), h₁.same (by omega)]
  · by_cases hnone : lot₁.takes backed d₂ = 0
    · rw [h₂.same hnone]
      exact h₁.covers (by omega)
    · have hcovers := h₂.covers hnone
      rw [h₁.after] at hcovers
      exact hcovers

theorem allocateShares_of_nonpos (hdemand : demand ≤ 0) : l.allocateShares key demand = .ok (0, l) :=
  if_pos hdemand

/-- Allocating a demand in two parts leaves the ledger that allocating it at once leaves, and as much of
the demand. -/
theorem allocateShares_additive (h : l.Reachable) (hlot : l.lot? key = some lot)
    (hinternal : l.isInternal key.sale = false) (hd₁ : 0 ≤ d₁) (hd₂ : 0 ≤ d₂)
    (hd : d.units = d₁.units + d₂.units) (hexact₁ : l.AllocatesExactly key d₁)
    (hexact₂ : l₁.AllocatesExactly key d₂) (hexact : l.AllocatesExactly key d)
    (hfirst : l.allocateShares key d₁ = .ok (rest₁, l₁))
    (hsecond : l₁.allocateShares key d₂ = .ok (rest₂, l₂))
    (hwhole : l.allocateShares key d = .ok (rest, l')) :
    l₂ = l' ∧ rest₁.add rest₂ = .ok rest := by
  suffices hsuff : l₂ = l' ∧ rest₁.units + rest₂.units = rest.units by
    obtain ⟨hsame, hsum⟩ := hsuff
    obtain ⟨sum, hadd, hunits⟩ := add_exact (a := rest₁) (b := rest₂) (hsum ▸ rest.representable)
    exact ⟨hsame, hadd.trans (congrArg _ (ext_units (hunits.trans hsum)))⟩
  -- nothing comes of a demand of nothing
  rcases Int.lt_or_eq_of_le hd₁ with hpos₁ | hzero₁
  case inr =>
    rw [units_zero] at hzero₁
    obtain rfl : d₂ = d := ext_units (by omega)
    rw [allocateShares_of_nonpos (show d₁.units ≤ 0 by omega)] at hfirst
    obtain ⟨rfl, rfl⟩ := Prod.mk.inj (Except.ok.inj hfirst)
    obtain ⟨rfl, rfl⟩ := Prod.mk.inj (Except.ok.inj (hsecond.symm.trans hwhole))
    exact ⟨rfl, Int.zero_add _⟩
  rcases Int.lt_or_eq_of_le hd₂ with hpos₂ | hzero₂
  case inr =>
    rw [units_zero] at hzero₂
    obtain rfl : d₁ = d := ext_units (by omega)
    rw [allocateShares_of_nonpos (show d₂.units ≤ 0 by omega)] at hsecond
    obtain ⟨rfl, rfl⟩ := Prod.mk.inj (Except.ok.inj hsecond)
    obtain ⟨rfl, rfl⟩ := Prod.mk.inj (Except.ok.inj (hfirst.symm.trans hwhole))
    exact ⟨rfl, Int.add_zero _⟩
  have hpos : 0 < d := by
    change 0 < d.units
    rw [hd]
    exact Int.add_pos hpos₁ hpos₂
  obtain ⟨e, he⟩ := h.lotsFollow.entries key lot hlot key.sale (.inr rfl)
  obtain ⟨p, hp⟩ := h.lotsFollow.entries key lot hlot key.purchase (.inl rfl)
  obtain ⟨sale, hsale, -⟩ := h.sound.exists_owner he
  obtain ⟨purchase, hpurchase, -⟩ := h.sound.exists_owner hp
  obtain ⟨backed, lot₁, hbacked, hallocated₁⟩ := hexact₁.allocated hlot hsale hpos₁ hfirst
  obtain ⟨backed', lot', hbacked', hallocated⟩ := hexact.allocated hlot hsale hpos hwhole
  obtain rfl := Except.ok.inj (hbacked.symm.trans hbacked')
  obtain rfl := hallocated₁.after
  have hkey₁ := hallocated₁.key_eq
  have hlot₁ : lot? { l with lots := l.lots.put lot₁ } key = some lot₁ := by
    rw [lot?_put, if_pos hkey₁.symm]
  obtain ⟨backed₂, lot₂, hbacked₂, hallocated₂⟩ := hexact₂.allocated hlot₁ hsale hpos₂ hsecond
  -- the second part finds the lot backed by as much as the first
  have honce := takesOnce_of_not_internal hsale hinternal
  have hsupply₁ := (hexact₁ hpos₁ lot hlot sale hsale).1
  have hsupply₂ := (hexact₂ hpos₂ lot₁ hlot₁ sale hsale).1
  rw [honce.backing_put hpurchase (congrArg LotKey.sale hkey₁) hsupply₁ hsupply₂, hbacked] at hbacked₂
  obtain rfl := Except.ok.inj hbacked₂
  obtain ⟨hsame, -⟩ := (hallocated₁.trans hallocated₂ hd₁ hd₂ hd hallocated.rest).unique hallocated
  have htakes := Lot.takes_add hd₁ hd₂ hd hallocated₁.shares
  have hrest₁ := hallocated₁.rest
  have hrest₂ := hallocated₂.rest
  have hrest := hallocated.rest
  exact ⟨hsame, by omega⟩

/-- Shares are moved to another account, and two become three before some are to be sold there. -/
def movedThenSplit : List Edit :=
  movedToSell ++ [.addSplit ⟨1⟩ ⟨.june 22, ⟨.whole 3, .whole 2⟩⟩, .insertLot ⟨⟨3⟩, ⟨9⟩⟩]

/-- Of the six shares that became of those that were moved, one is taken for a demand of nine at first,
and then the other five. -/
theorem allocateShares_additive_movedThere :
    ∃ (l l₁ l₂ : Ledger) (lot : Lot) (rest₁ rest₂ rest : Decimal), l.Reachable ∧
      l.lot? ⟨⟨3⟩, ⟨9⟩⟩ = some lot ∧ l.isInternal ⟨9⟩ = false ∧
      l.AllocatesExactly ⟨⟨3⟩, ⟨9⟩⟩ 1 ∧ l₁.AllocatesExactly ⟨⟨3⟩, ⟨9⟩⟩ (.whole 8) ∧
      l.AllocatesExactly ⟨⟨3⟩, ⟨9⟩⟩ (.whole 9) ∧
      l.allocateShares ⟨⟨3⟩, ⟨9⟩⟩ 1 = .ok (rest₁, l₁) ∧
      l₁.allocateShares ⟨⟨3⟩, ⟨9⟩⟩ (.whole 8) = .ok (rest₂, l₂) ∧
      l.allocateShares ⟨⟨3⟩, ⟨9⟩⟩ (.whole 9) = .ok (rest, l₂) ∧ rest₁.add rest₂ = .ok rest := by
  have hcheck : (((Ledger.new .standard).performAll movedThenSplit).toOption.any fun l =>
      (l.lot? ⟨⟨3⟩, ⟨9⟩⟩).any fun lot =>
      (l.allocateShares ⟨⟨3⟩, ⟨9⟩⟩ 1).toOption.any fun r₁ =>
      (r₁.2.allocateShares ⟨⟨3⟩, ⟨9⟩⟩ (.whole 8)).toOption.any fun r₂ =>
      (l.allocateShares ⟨⟨3⟩, ⟨9⟩⟩ (.whole 9)).toOption.any fun r => l.isInternal ⟨9⟩ = false ∧
        l.AllocatesExactly ⟨⟨3⟩, ⟨9⟩⟩ 1 ∧ r₁.2.AllocatesExactly ⟨⟨3⟩, ⟨9⟩⟩ (.whole 8) ∧
        l.AllocatesExactly ⟨⟨3⟩, ⟨9⟩⟩ (.whole 9) ∧ 0 < r₂.1 ∧ r₂.1 < .whole 8) = true := by
    decide +kernel
  obtain ⟨l, hl, hcheck⟩ := exists_ok_of_any hcheck
  obtain ⟨lot, hlot, hcheck⟩ := (Option.any_eq_true _ _).mp hcheck
  obtain ⟨⟨rest₁, l₁⟩, h₁, hcheck⟩ := exists_ok_of_any hcheck
  obtain ⟨⟨rest₂, l₂⟩, h₂, hcheck⟩ := exists_ok_of_any hcheck
  obtain ⟨⟨rest, l'⟩, hwhole, hcheck⟩ := exists_ok_of_any hcheck
  obtain ⟨hinternal, hexact₁, hexact₂, hexact, -, -⟩ := of_decide_eq_true hcheck
  have hreachable := (Reachable.new .standard).performAll hl
  obtain ⟨rfl, hrest⟩ := allocateShares_additive hreachable hlot hinternal (by decide) (by decide)
    (by decide) hexact₁ hexact₂ hexact h₁ h₂ hwhole
  exact ⟨l, l₁, _, lot, rest₁, rest₂, rest, hreachable, hlot, hinternal, hexact₁, hexact₂, hexact,
    h₁, h₂, hwhole, hrest⟩

end Parts

end Ledger

end Lotbook
