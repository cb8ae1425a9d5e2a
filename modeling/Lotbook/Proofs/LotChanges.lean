/-
# Lotbook.Proofs.LotChanges -- how the lots of a ledger change

Deriving lots again only sets their shares as of the purchase date (`Rederived`). Matching adds lots
and resizes lots, all else stays; a lot that was there before is there after, and the lots that are
new are the ones that the allocation says it made (`Matched`). Whatever is proved of a matching follows
from what one turn of it may come to (`coverDemand_cons_eq_ok`).

A lot that grows computes a chain of numbers, each from the one before: what is left of its purchase,
what that backs, the room, the shares that it takes. They are kept together, with the equations that
they come from, in `Headroom` and `Growth`; so an offer to a lot has two outcomes and not one for each
step of the computation (`allocateShares_eq_ok`).
-/
import Lotbook.Proofs.Changes

namespace Lotbook.Ledger

variable {l l₁ l₂ : Ledger}

/-- Two ledgers that differ in nothing but their lots. -/
def SameButLots (l l₁ : Ledger) : Prop := l₁ = { l with lots := l₁.lots }

theorem SameButLots.refl (l : Ledger) : l.SameButLots l := rfl

theorem SameButLots.trans (h : l.SameButLots l₁) (h' : l₁.SameButLots l₂) : l.SameButLots l₂ := by
  rw [SameButLots, h', h]

theorem sameButLots_mk (l : Ledger) (lots : Register Lot) : l.SameButLots { l with lots } := rfl

/-- The shares as of the purchase date are those that it takes to back the shares as of the sale date.
They do back them, and the splits find them again. -/
theorem lotPurchaseShares_eq_ok_iff {key : LotKey} {shares p : Decimal} :
    l.lotPurchaseShares key shares = .ok p ↔ l.covering (l.lotContext key) shares = .ok p ∧
      (∃ r x, l.splitRatio (l.lotContext key) = .ok r ∧ r.apply p = .ok x ∧ shares ≤ x) ∧
      ∃ y, l.applySplits (l.lotContext key) p = .ok y ∧
        l.revertSplits (l.lotContext key) y = .ok p := by
  simp only [lotPurchaseShares, bind_eq_ok_iff, LotContract.check_eq_ok_iff, pure_eq_ok_iff]
  constructor
  · rintro ⟨p', hp, r, hr, x, hx, -, hback, y, hy, found, hfound, -, rfl, rfl⟩
    exact ⟨hp, ⟨r, x, hr, hx, hback⟩, y, hy, hfound⟩
  · rintro ⟨hp, ⟨r, x, hr, hx, hback⟩, y, hy, hfound⟩
    exact ⟨p, hp, r, hr, x, hx, (), hback, y, hy, p, hfound, (), rfl, rfl⟩

theorem covering_of_lotPurchaseShares {key : LotKey} {shares p : Decimal}
    (h : l.lotPurchaseShares key shares = .ok p) : l.covering (l.lotContext key) shares = .ok p :=
  (lotPurchaseShares_eq_ok_iff.mp h).1

/-- A lot is given shares as of the sale date; those as of the purchase date are derived from them. -/
theorem resized_eq_ok {lot lot₁ : Lot} {shares : Decimal} (h : l.resized lot shares = .ok lot₁) :
    ∃ p, l.lotPurchaseShares lot.key shares = .ok p ∧
      lot₁ = { lot with purchaseShares := p, adjustedShares := shares } := by
  simp only [resized, bind_eq_ok_iff, pure_eq_ok_iff] at h
  obtain ⟨p, hp, rfl⟩ := h
  exact ⟨p, hp, rfl⟩

theorem lot?_put_resized (l : Ledger) (lot : Lot) (p a : Decimal) (key : LotKey) :
    { l with lots := l.lots.put { lot with purchaseShares := p, adjustedShares := a } }.lot? key =
      if key = lot.key then some { lot with purchaseShares := p, adjustedShares := a }
      else l.lot? key :=
  lot?_put l _ key

theorem lot?_put_empty (l : Ledger) (key k : LotKey) :
    { l with lots := l.lots.put (.empty key) }.lot? k =
      if k = key then some (.empty key) else l.lot? k :=
  lot?_put l (.empty key) k

theorem setLotShares_eq_ok {key : LotKey} {shares : Decimal}
    (h : l.setLotShares key shares = .ok l₁) :
    ∃ lot p, l.lot? key = some lot ∧ l.lotPurchaseShares key shares = .ok p ∧
      l₁ = { l with
        lots := l.lots.put { lot with purchaseShares := p, adjustedShares := shares } } := by
  simp only [setLotShares, bind_eq_ok_iff, orError_eq_ok_iff, liftM_fault_eq_ok_iff,
    pure_eq_ok_iff] at h
  obtain ⟨lot, hlot, lot₁, hlot₁, rfl⟩ := h
  obtain ⟨p, hp, rfl⟩ := resized_eq_ok hlot₁
  rw [key_of_lot hlot] at hp
  exact ⟨lot, p, hlot, hp, rfl⟩

/-- A lot is made between two entries that are there, where there is none yet. It has no shares. -/
theorem insertLot_eq_ok {key : LotKey} (h : l.insertLot key = .ok l₁) :
    (∃ e, l.entry? key.purchase = some e) ∧ (∃ e, l.entry? key.sale = some e) ∧
      l.lot? key = none ∧ l₁ = { l with lots := l.lots.put (.empty key) } := by
  rw [insertLot] at h
  split at h
  · cases h
  · rename_i hpurchase
    split at h
    · cases h
    · rename_i hsale
      split at h
      · cases h
      · rename_i hlot
        obtain rfl := Except.ok.inj h
        simp only [Option.isNone_iff_eq_none, ← ne_eq, Option.ne_none_iff_exists'] at hpurchase hsale
        exact ⟨hpurchase, hsale, by simpa using hlot, rfl⟩

theorem removeLot_eq_ok {key : LotKey} {lot : Lot} (h : l.removeLot key = .ok (lot, l₁)) :
    l.lot? key = some lot ∧ l₁ = { l with lots := l.lots.erase key } := by
  simp only [removeLot, bind_eq_ok_iff, orError_eq_ok_iff, pure_eq_ok_iff] at h
  obtain ⟨lot', hlot, h⟩ := h
  obtain ⟨rfl, rfl⟩ := Prod.mk.inj h
  exact ⟨hlot, rfl⟩

theorem removeLot_of_lot? {key : LotKey} {lot : Lot} (h : l.lot? key = some lot) :
    l.removeLot key = .ok (lot, { l with lots := l.lots.erase key }) := by
  simp only [removeLot, h]
  rfl

/-! ## Deriving lots again -/

/-- Affected lots have as many shares as of the purchase date as it takes to back them, and nothing
else changed. They are derived in the ledger from before: what a lot takes does not depend on lots. -/
structure Rederived (affected : LotKey → Bool) (l l₁ : Ledger) : Prop where
  changed : Changed l l₁
  same : l.SameButLots l₁
  derived : ∀ key lot, l.lot? key = some lot → affected key = true →
    ∃ p, l.lotPurchaseShares key lot.adjustedShares = .ok p ∧
      l₁.lot? key = some { lot with purchaseShares := p }
  unaffected : ∀ key, (affected key = true → l.lot? key = none) → l₁.lot? key = l.lot? key

/-- The shares as of the sale date stay in any case. -/
theorem Rederived.lot?_eq {affected : LotKey → Bool} (h : Rederived affected l l₁) (key : LotKey) :
    ∃ p, l₁.lot? key = (l.lot? key).map fun lot => { lot with purchaseShares := p } := by
  cases hlot : l.lot? key with
  | none => exact ⟨0, (h.unaffected key fun _ => hlot).trans hlot⟩
  | some lot =>
    cases haffected : affected key with
    | true =>
      obtain ⟨p, -, hp⟩ := h.derived key lot hlot haffected
      exact ⟨p, hp⟩
    | false =>
      have hsame := h.unaffected key fun htrue => by simp [haffected] at htrue
      exact ⟨lot.purchaseShares, hsame.trans hlot⟩

/--
Deriving some lots again, each under a key of its own, leaves the others. All of them are derived in the
ledger `l` that the fold began with, while the lots are put into the accumulator: the induction is on the
lots that are still to come, which are in the accumulator as they were (`hlots`).
-/
theorem foldlM_resized_eq_ok {lots : List Lot} (hnodup : (lots.map Lot.key).Nodup) {acc : Ledger}
    (hlots : ∀ lot ∈ lots, acc.lot? lot.key = some lot)
    (h : lots.foldlM (fun acc lot => do
      return { acc with lots := acc.lots.put (← l.resized lot lot.adjustedShares) }) acc = .ok l₁) :
    Changed acc l₁ ∧ acc.SameButLots l₁ ∧
      (∀ lot ∈ lots, ∃ p, l.lotPurchaseShares lot.key lot.adjustedShares = .ok p ∧
        l₁.lot? lot.key = some { lot with purchaseShares := p }) ∧
      ∀ key, key ∉ lots.map Lot.key → l₁.lot? key = acc.lot? key := by
  induction lots generalizing acc with
  | nil =>
    obtain rfl : acc = l₁ := pure_eq_ok_iff.mp h
    exact ⟨.refl, rfl, fun _ hlot => (List.not_mem_nil hlot).elim, fun _ _ => rfl⟩
  | cons lot lots ih =>
    simp only [List.foldlM_cons, bind_eq_ok_iff, pure_eq_ok_iff] at h
    obtain ⟨acc₁, ⟨lot₁, hlot₁, rfl⟩, h⟩ := h
    obtain ⟨p, hp, rfl⟩ := resized_eq_ok hlot₁
    obtain ⟨hfresh, hnodup⟩ := List.nodup_cons.mp hnodup
    have hput := lot?_put_resized acc lot p lot.adjustedShares
    have hkept : ∀ lot' ∈ lots, lot'.key ≠ lot.key := by
      intro lot' hlot' hkey
      exact hfresh (hkey ▸ List.mem_map_of_mem hlot')
    obtain ⟨hchanged, hsame, hderived, hothers⟩ := ih hnodup (fun lot' hlot' => by
      rw [hput, if_neg (hkept lot' hlot')]
      exact hlots lot' (List.mem_cons_of_mem lot hlot')) h
    have hresize := Change.resizeLot (hlots lot List.mem_cons_self) p lot.adjustedShares
    refine ⟨hchanged.head hresize, (sameButLots_mk ..).trans hsame, fun lot' hlot' => ?_,
      fun key hkey => ?_⟩
    · rcases List.mem_cons.mp hlot' with rfl | hlot'
      · exact ⟨p, hp, by rw [hothers _ hfresh, hput, if_pos rfl]⟩
      · exact hderived lot' hlot'
    · rw [List.map_cons, List.mem_cons, not_or] at hkey
      rw [hothers key hkey.2, hput, if_neg hkey.1]

/-- The lots to derive are found in the ledger, so they have different keys, and are there under them. -/
theorem rederiveLots_eq_ok {affected : LotKey → Bool} (h : l.rederiveLots affected = .ok l₁) :
    Rederived affected l l₁ := by
  have hmem : ∀ lot, lot ∈ l.lots.items.filter (fun lot => affected lot.key) ↔
      l.lot? lot.key = some lot ∧ affected lot.key = true := by
    intro lot
    rw [List.mem_filter, Register.mem_items_iff]
    rfl
  have hnodup : ((l.lots.items.filter fun lot => affected lot.key).map Lot.key).Nodup :=
    l.lots.nodup_keys.sublist (List.filter_sublist.map _)
  obtain ⟨hchanged, hsame, hderived, hothers⟩ :=
    foldlM_resized_eq_ok hnodup (fun lot hlot => ((hmem lot).mp hlot).1) h
  refine ⟨hchanged, hsame, fun key lot hlot haffected => ?_, fun key hkey => hothers key ?_⟩
  · obtain rfl : lot.key = key := key_of_lot hlot
    exact hderived lot ((hmem lot).mpr ⟨hlot, haffected⟩)
  · intro hin
    obtain ⟨lot, hlot, rfl⟩ := List.mem_map.mp hin
    obtain ⟨hlot, haffected⟩ := (hmem lot).mp hlot
    simp [hkey haffected] at hlot

/-- The lots whose splits are those of a security. -/
def splitBy (l : Ledger) (id : SecurityId) (key : LotKey) : Bool :=
  (l.lotContext key).security = some id

theorem rederiveLotsOfSecurity_eq_ok {id : SecurityId} (h : l.rederiveLotsOfSecurity id = .ok l₁) :
    Rederived (l.splitBy id) l l₁ := rederiveLots_eq_ok h

/-- Whether an entry belongs to one of some transactions. -/
def ownedAmong (l : Ledger) (ids : List TransactionId) (entry : EntryId) : Bool :=
  match (l.entry? entry).bind Entry.transaction with
  | some owner => ids.contains owner
  | none => false

theorem rederiveLotsOfTransactions_eq_ok {ids : List TransactionId}
    (h : l.rederiveLotsOfTransactions ids = .ok l₁) :
    Rederived (fun key => l.ownedAmong ids key.purchase || l.ownedAmong ids key.sale) l l₁ := by
  rw [rederiveLotsOfTransactions] at h
  exact rederiveLots_eq_ok h

/-! ## Splits -/

/-- A split is put on a day that had none. The lots of the security are derived in the ledger that has
the split already. -/
theorem addSplit_eq_ok {id : SecurityId} {split : StockSplit} (h : l.addSplit id split = .ok l₁) :
    ∃ s l₂, l.security? id = some s ∧ s.history.on? split.date = none ∧
      l₂ = l.withHistory s { s.history with splits := s.history.splits.put split } ∧
      Rederived (l₂.splitBy id) l₂ l₁ := by
  simp only [addSplit, bind_eq_ok_iff, orError_eq_ok_iff, liftM_fault_eq_ok_iff,
    liftM_split_eq_ok_iff] at h
  obtain ⟨s, hs, history, hhistory, h⟩ := h
  rw [SplitHistory.insert] at hhistory
  split at hhistory
  · cases hhistory
  · rename_i hnone
    obtain rfl := Except.ok.inj hhistory
    exact ⟨s, _, hs, hnone, rfl, rederiveLotsOfSecurity_eq_ok h⟩

/-- A split that is not there is no error: nothing happens, and nothing is derived. -/
theorem removeSplit_eq_ok {id : SecurityId} {date : Date} {removed : Option StockSplit}
    (h : l.removeSplit id date = .ok (removed, l₁)) :
    ∃ s, l.security? id = some s ∧ removed = s.history.on? date ∧
      (removed = none ∧ l₁ = l ∨ (∃ split, removed = some split) ∧
        ∃ l₂, l₂ = l.withHistory s (s.history.remove date) ∧ Rederived (l₂.splitBy id) l₂ l₁) := by
  simp only [removeSplit, bind_eq_ok_iff, orError_eq_ok_iff] at h
  obtain ⟨s, hs, h⟩ := h
  split at h
  · rename_i hnone
    obtain ⟨rfl, rfl⟩ := Prod.mk.inj (pure_eq_ok_iff.mp h)
    exact ⟨s, hs, hnone.symm, .inl ⟨rfl, rfl⟩⟩
  · rename_i split hsplit
    simp only [bind_eq_ok_iff, liftM_fault_eq_ok_iff, pure_eq_ok_iff] at h
    obtain ⟨l₂, hderive, h⟩ := h
    obtain ⟨rfl, rfl⟩ := Prod.mk.inj h
    exact ⟨s, hs, hsplit.symm, .inr ⟨⟨split, rfl⟩, _, rfl, rederiveLotsOfSecurity_eq_ok hderive⟩⟩

/-! ## Matching -/

/-- How far a lot may grow: what its purchase has left, the shares that this backs together with its own,
and the room that is left under them. -/
structure Headroom (l : Ledger) (key : LotKey) where
  lot : Lot
  sale : Transaction
  remaining : Decimal
  total : Decimal
  backed : Decimal
  room : Decimal
  lot?_eq : l.lot? key = some lot
  owner?_eq : l.owner? key.sale = some sale
  remaining_eq : l.remainingForAccount key.purchase sale.account = .ok remaining
  total_eq : lot.purchaseShares.add remaining = .ok total
  backed_eq : l.coveredBy (l.lotContext key) total = .ok backed
  room_eq : backed.sub lot.adjustedShares = .ok room

/-- How a lot grows: the shares that it has in the end, as of both days. -/
structure Growth (l : Ledger) (key : LotKey) (demand : Decimal) extends Headroom l key where
  adjustedShares : Decimal
  purchaseShares : Decimal
  room_pos : 0 < room
  demand_pos : 0 < demand
  adjustedShares_eq : lot.adjustedShares.add (demand.min room) = .ok adjustedShares
  purchaseShares_eq : l.covering (l.lotContext key) adjustedShares = .ok purchaseShares

/-- There is one way in which a lot may grow, so what is found out about one headroom holds of all. -/
theorem Headroom.unique {key : LotKey} (h h' : Headroom l key) : h = h' := by
  obtain ⟨lot, sale, remaining, total, backed, room, hlot, hsale, hremaining, htotal, hbacked, hroom⟩ := h
  obtain ⟨lot', sale', remaining', total', backed', room', hlot', hsale', hremaining', htotal', hbacked',
    hroom'⟩ := h'
  obtain rfl := Option.some.inj (hlot.symm.trans hlot')
  obtain rfl := Option.some.inj (hsale.symm.trans hsale')
  obtain rfl := Except.ok.inj (hremaining.symm.trans hremaining')
  obtain rfl := Except.ok.inj (htotal.symm.trans htotal')
  obtain rfl := Except.ok.inj (hbacked.symm.trans hbacked')
  obtain rfl := Except.ok.inj (hroom.symm.trans hroom')
  rfl

namespace Growth

variable {key : LotKey} {demand : Decimal}

/-- The lot with the shares that it grew to. -/
def grown (g : Growth l key demand) : Lot :=
  { g.lot with purchaseShares := g.purchaseShares, adjustedShares := g.adjustedShares }

/-- The ledger with the lot that grew. -/
def after (g : Growth l key demand) : Ledger := { l with lots := l.lots.put g.grown }

/-- The shares that the lot takes. -/
def taken (g : Growth l key demand) : Decimal := demand.min g.room

theorem taken_pos (g : Growth l key demand) : 0 < g.taken := by
  unfold taken Decimal.min
  split
  · exact g.demand_pos
  · exact g.room_pos

theorem lot?_key (g : Growth l key demand) : l.lot? g.lot.key = some g.lot := by
  rw [key_of_lot g.lot?_eq]
  exact g.lot?_eq

theorem grown_key (g : Growth l key demand) : g.grown.key = key := by
  show g.lot.key = key
  exact key_of_lot g.lot?_eq

theorem lot?_after (g : Growth l key demand) (k : LotKey) :
    g.after.lot? k = if k = key then some g.grown else l.lot? k := by
  have hkey : g.lot.key = key := key_of_lot g.lot?_eq
  exact (lot?_put_resized l g.lot _ _ k).trans (by rw [hkey]; rfl)

end Growth

/-- The contracts of a lot that has grown: its shares as of the purchase date back it and are found
again, and its purchase is not left with less than nothing unless it was before. -/
structure Growth.Kept {key : LotKey} {demand : Decimal} (g : Growth l key demand) : Prop where
  derived : l.lotPurchaseShares key g.adjustedShares = .ok g.purchaseShares
  stock : ∃ left, g.after.remainingForAccount key.purchase g.sale.account = .ok left ∧
    g.remaining.min 0 ≤ left

section Offer

variable {key : LotKey} {demand rest : Decimal}

/-- A lot without room takes nothing. -/
theorem Headroom.allocateShares_of_full (h : Headroom l key) (hdemand : 0 < demand)
    (hfull : h.room ≤ 0) : l.allocateShares key demand = .ok (demand, l) := by
  have hpos : ¬ demand ≤ 0 := Int.not_le.mpr hdemand
  have hmax : h.room.max 0 = 0 := if_pos hfull
  have hmin : demand.min 0 = 0 := if_neg hpos
  simp only [allocateShares, if_neg hpos, h.lot?_eq, h.owner?_eq, h.remaining_eq, h.total_eq,
    h.backed_eq, h.room_eq, bind, Except.bind, hmax, hmin, if_true, pure, Except.pure]

/-- A lot with room takes what it grows by, as far as its contracts are kept. -/
theorem Growth.allocateShares_eq (g : Growth l key demand) :
    l.allocateShares key demand = (do
      let _ ← l.lotPurchaseShares key g.adjustedShares
      let left ← g.after.remainingForAccount key.purchase g.sale.account
      LotContract.check (.stock key) (g.remaining.min 0 ≤ left)
      return (← demand.sub g.taken, g.after)) := by
  have hpos : ¬ demand ≤ 0 := Int.not_le.mpr g.demand_pos
  have hmax : g.room.max 0 = g.room := if_neg (Int.not_le.mpr g.room_pos)
  have htaken : g.taken ≠ 0 := fun hzero => by
    have := g.taken_pos
    rw [hzero] at this
    exact absurd this (Int.lt_irrefl 0)
  have hkey : g.lot.key = key := key_of_lot g.lot?_eq
  have hallocation : LotContract.check .allocation (g.taken ≤ g.taken) = .ok () :=
    LotContract.check_of_kept (Int.le_refl _)
  have hgrown : g.lot.adjustedShares.add g.taken = .ok g.adjustedShares := g.adjustedShares_eq
  simp only [allocateShares, if_neg hpos, g.lot?_eq, g.owner?_eq, g.remaining_eq, g.total_eq,
    g.backed_eq, g.room_eq, hmax, show demand.min g.room = g.taken from rfl, if_neg htaken, hgrown,
    hallocation, resized, hkey, bind, Except.bind, pure, Except.pure]
  cases hderived : l.lotPurchaseShares key g.adjustedShares with
  | error fault => rfl
  | ok p =>
    obtain rfl : g.purchaseShares = p :=
      Except.ok.inj (g.purchaseShares_eq.symm.trans (covering_of_lotPurchaseShares hderived))
    rfl

/--
A lot that is offered shares has no room and takes none, or it grows and keeps its contracts. The first
case also covers a lot that is not there, a sale without an account and a demand that is none; of these
it says that no headroom can be found, or that none is asked for.
-/
theorem allocateShares_eq_ok (h : l.allocateShares key demand = .ok (rest, l₁)) :
    (0 < demand → ∀ h : Headroom l key, h.room ≤ 0) ∧ rest = demand.max 0 ∧ l₁ = l ∨
      ∃ g : Growth l key demand, g.Kept ∧ demand.sub g.taken = .ok rest ∧ l₁ = g.after := by
  rw [allocateShares] at h
  split at h
  · rename_i hdemand
    obtain ⟨rfl, rfl⟩ := Prod.mk.inj (Except.ok.inj h)
    exact .inl ⟨fun hpos => absurd hpos (Int.not_lt.mpr hdemand), (if_pos hdemand).symm, rfl⟩
  · rename_i hdemand
    have hrest : demand = demand.max 0 := (if_neg hdemand).symm
    split at h
    · rename_i lot sale hlot hsale
      simp only [bind_eq_ok_iff] at h
      obtain ⟨remaining, hremaining, total, htotal, backed, hbacked, room, hroom, h⟩ := h
      let headroom : Headroom l key := ⟨lot, sale, remaining, total, backed, room, hlot, hsale,
        hremaining, htotal, hbacked, hroom⟩
      have hdemand_pos : 0 < demand := Int.not_le.mp hdemand
      -- The program asks whether any shares are taken; with a demand, that is whether there is room.
      split at h
      · rename_i htaken
        obtain ⟨rfl, rfl⟩ := Prod.mk.inj (pure_eq_ok_iff.mp h)
        refine .inl ⟨fun _ other => ?_, hrest, rfl⟩
        rw [other.unique headroom]
        by_contra hroom_pos
        have hmax : room.max 0 = room := if_neg hroom_pos
        rw [hmax] at htaken
        have hpos : 0 < demand.min room := by
          unfold Decimal.min
          split
          · exact hdemand_pos
          · exact Int.not_le.mp hroom_pos
        rw [htaken] at hpos
        exact absurd hpos (Int.lt_irrefl 0)
      · rename_i htaken
        have hroom_pos : 0 < room := by
          by_contra hle
          have hmax : room.max 0 = 0 := if_pos (Int.not_lt.mp hle)
          have hmin : demand.min 0 = 0 := if_neg hdemand
          rw [hmax] at htaken
          exact htaken hmin
        have hmax : room.max 0 = room := if_neg (Int.not_le.mpr hroom_pos)
        simp only [bind_eq_ok_iff, pure_eq_ok_iff, Prod.mk.injEq, hmax,
          LotContract.check_eq_ok_iff] at h
        obtain ⟨shares, hshares, grown, hgrown, -, -, left, hleft, -, hstock, rest', hsub, rfl, rfl⟩ := h
        obtain ⟨p, hp, rfl⟩ := resized_eq_ok hgrown
        rw [key_of_lot hlot] at hp
        exact .inr ⟨⟨headroom, shares, p, hroom_pos, hdemand_pos, hshares,
          covering_of_lotPurchaseShares hp⟩, ⟨hp, left, hleft, hstock⟩, hsub, rfl⟩
    · rename_i hnone
      obtain ⟨rfl, rfl⟩ := Prod.mk.inj (Except.ok.inj h)
      exact .inl ⟨fun _ other => (hnone _ _ other.lot?_eq other.owner?_eq).elim, hrest, rfl⟩

end Offer

/-- Growing a lot leaves all other lots, and which lots there are. -/
theorem allocateShares_changed {key : LotKey} {demand rest : Decimal}
    (h : l.allocateShares key demand = .ok (rest, l₁)) :
    Changed l l₁ ∧ l.SameButLots l₁ ∧ (∀ k, k ≠ key → l₁.lot? k = l.lot? k) ∧
      ((l₁.lot? key).isSome = (l.lot? key).isSome) := by
  rcases allocateShares_eq_ok h with ⟨-, -, rfl⟩ | ⟨g, -, -, rfl⟩
  · exact ⟨.refl, rfl, fun _ _ => rfl, rfl⟩
  · refine ⟨.single (.resizeLot g.lot?_key _ _), rfl, fun k hk => ?_, ?_⟩
    · rw [g.lot?_after, if_neg hk]
    · rw [g.lot?_after, if_pos rfl, g.lot?_eq]
      rfl

/-- A lot changes only by growing. -/
theorem growth_of_changed {key : LotKey} {demand rest : Decimal}
    (h : l.allocateShares key demand = .ok (rest, l₁)) (hne : l₁.lot? key ≠ l.lot? key) :
    ∃ g : Growth l key demand, demand.sub g.taken = .ok rest := by
  rcases allocateShares_eq_ok h with ⟨-, -, rfl⟩ | ⟨g, -, hrest, -⟩
  · exact absurd rfl hne
  · exact ⟨g, hrest⟩

/-! ## One turn of a matching

The program has the same steps twice, for a lot that is there and for one that is made. With the three
functions below they are one sequence, and that it comes to the same is `coverDemand_cons_eq`.
-/

/-- The ledger with a lot of a purchase and a sale, which is made if it is not there. -/
def withLot (l : Ledger) (key : LotKey) : Except LedgerError Ledger :=
  if (l.lot? key).isSome then .ok l else l.insertLot key

/-- A later ledger without a lot that was not there before. -/
def dropIfNew (l : Ledger) (key : LotKey) (after : Ledger) : Ledger :=
  if (l.lot? key).isSome then after else { after with lots := after.lots.erase key }

/-- What a matching says with a lot that took some of the demand. -/
def noted (l : Ledger) (key : LotKey) (a : Allocation) : Allocation :=
  if (l.lot? key).isSome then { a with updated := key :: a.updated }
  else { a with created := key :: a.created }

@[simp] theorem unallocated_noted (l : Ledger) (key : LotKey) (a : Allocation) :
    (l.noted key a).unallocated = a.unallocated := by
  unfold noted
  split <;> rfl

/-- It names the lot besides those that it names already. -/
theorem noted_perm (l : Ledger) (key : LotKey) (a : Allocation) :
    ((l.noted key a).created ++ (l.noted key a).updated).Perm (key :: (a.created ++ a.updated)) := by
  unfold noted
  split
  · exact List.perm_middle
  · exact .refl _

section Turns

variable {key : LotKey} {made after : Ledger} {sale purchase : EntryId} {candidates : List EntryId}
  {demand : Decimal} {outcome : Except LedgerError Allocation}

/-- Making a lot leaves all others. -/
theorem withLot_changed (h : l.withLot key = .ok made) :
    Changed l made ∧ l.SameButLots made ∧ (∀ k, k ≠ key → made.lot? k = l.lot? k) ∧
      (made.lot? key).isSome := by
  unfold withLot at h
  split at h
  · rename_i hsome
    obtain rfl := Except.ok.inj h
    exact ⟨.refl, rfl, fun _ _ => rfl, hsome⟩
  · obtain ⟨-, -, -, hmade⟩ := insertLot_eq_ok h
    have hput := lot?_put_empty l key
    rw [← hmade] at hput
    refine ⟨.single (.insertLot h), hmade ▸ sameButLots_mk .., fun k hk => ?_, ?_⟩
    · rw [hput, if_neg hk]
    · rw [hput, if_pos rfl]
      rfl

/-- A lot that is there does not have to be made, so a refusal is one of making it. -/
theorem withLot_eq_error {e : LedgerError} (h : l.withLot key = .error e) :
    l.lot? key = none ∧ l.insertLot key = .error e := by
  unfold withLot at h
  split at h
  · cases h
  · rename_i hnone
    exact ⟨Option.not_isSome_iff_eq_none.mp hnone, h⟩

/-- Nor does it change another when shares are offered to it. -/
theorem offered_changed {rest : Decimal} (hmade : l.withLot key = .ok made)
    (hoffer : made.allocateShares key demand = .ok (rest, after)) :
    Changed l after ∧ l.SameButLots after ∧ (∀ k, k ≠ key → after.lot? k = l.lot? k) ∧
      (after.lot? key).isSome := by
  obtain ⟨hchanged, hsame, hother, hkey⟩ := withLot_changed hmade
  obtain ⟨hchanged', hsame', hother', hkey'⟩ := allocateShares_changed hoffer
  exact ⟨hchanged.trans hchanged', hsame.trans hsame', fun k hk => (hother' k hk).trans (hother k hk),
    hkey'.trans hkey⟩

/-- A lot that is dropped if it is new is there if it was there before. -/
theorem dropIfNew_changed (hchanged : Changed l after) (hsame : l.SameButLots after)
    (hother : ∀ k, k ≠ key → after.lot? k = l.lot? k) (hkey : (after.lot? key).isSome) :
    Changed l (l.dropIfNew key after) ∧ l.SameButLots (l.dropIfNew key after) ∧
      ∀ k, ((l.dropIfNew key after).lot? k).isSome = (l.lot? k).isSome := by
  unfold dropIfNew
  split
  · rename_i hsome
    refine ⟨hchanged, hsame, fun k => ?_⟩
    by_cases hk : k = key
    · rw [hk, hkey, hsome]
    · rw [hother k hk]
  · rename_i hnone
    refine ⟨hchanged.tail (.dropLot after key), hsame.trans (sameButLots_mk ..), fun k => ?_⟩
    rw [lot?_erase]
    by_cases hk : k = key
    · rw [if_pos hk, hk, Option.not_isSome_iff_eq_none.mp hnone]
    · rw [if_neg hk, hother k hk]

/-- Only a lot from before is not dropped, and only the one that was offered shares has changed. -/
theorem eq_of_dropIfNew_ne {k : LotKey} (hother : ∀ k, k ≠ key → after.lot? k = l.lot? k)
    (hne : (l.dropIfNew key after).lot? k ≠ l.lot? k) : k = key ∧ (l.lot? key).isSome := by
  by_cases hk : k = key
  · refine ⟨hk, ?_⟩
    by_contra hnone
    rw [dropIfNew, if_neg hnone, lot?_erase, if_pos hk, hk] at hne
    exact hne (Option.not_isSome_iff_eq_none.mp hnone).symm
  · refine absurd ?_ hne
    unfold dropIfNew
    split
    · exact hother k hk
    · rw [lot?_erase, if_neg hk, hother k hk]

/-- A matching ends when nothing is lacking, whatever candidates there still are. -/
theorem coverDemand_zero (l : Ledger) (sale : EntryId) (candidates : List EntryId) :
    l.coverDemand sale 0 candidates = .ok (.ok ⟨[], [], 0⟩, l) := by
  cases candidates <;> rfl

/-- A matching offers the demand to its first candidate and what is left of it to the others. A lot that
was made for that and took nothing is dropped again. -/
theorem coverDemand_cons_eq (hdemand : demand ≠ 0) (hself : purchase ≠ sale)
    (candidates : List EntryId) : l.coverDemand sale demand (purchase :: candidates) =
      match l.withLot ⟨purchase, sale⟩ with
      | .error e => .ok (.error e, l)
      | .ok made => (do
          let (rest, after) ← made.allocateShares ⟨purchase, sale⟩ demand
          if rest < demand then
            let (outcome, l₁) ← after.coverDemand sale rest candidates
            return (outcome.map (l.noted ⟨purchase, sale⟩), l₁)
          else (l.dropIfNew ⟨purchase, sale⟩ after).coverDemand sale rest candidates) := by
  rw [coverDemand, if_neg hdemand, if_neg hself]
  unfold withLot dropIfNew noted
  cases hlot : l.lot? ⟨purchase, sale⟩ with
  | some lot =>
    cases hgrow : l.allocateShares ⟨purchase, sale⟩ demand with
    | error fault => simp [hgrow, hlot, bind, Except.bind]
    | ok r =>
      by_cases hless : r.1 < demand
      · simp [hgrow, hlot, bind, Except.bind, hless]
      · simp only [hgrow, hlot, bind, Except.bind, hless, if_false, Option.isSome_some, if_true]
        cases r.2.coverDemand sale r.1 candidates <;> rfl
  | none =>
    cases hinsert : l.insertLot ⟨purchase, sale⟩ with
    | error e => simp [hinsert, hlot]
    | ok made => simp [hinsert, hlot]

/-- A matching that has come through has come through with its first candidate: nothing was wanted of it,
or its lot could not be made, or it was offered the demand. -/
theorem coverDemand_cons_eq_ok
    (h : l.coverDemand sale demand (purchase :: candidates) = .ok (outcome, l₁)) :
    (demand = 0 ∧ outcome = .ok ⟨[], [], demand⟩ ∧ l₁ = l) ∨
      (purchase = sale ∧ l.coverDemand sale demand candidates = .ok (outcome, l₁)) ∨
      (∃ e, l.withLot ⟨purchase, sale⟩ = .error e ∧ outcome = .error e ∧ l₁ = l) ∨
      ∃ made rest after, l.withLot ⟨purchase, sale⟩ = .ok made ∧
        made.allocateShares ⟨purchase, sale⟩ demand = .ok (rest, after) ∧
        (rest < demand ∧ (∃ o, after.coverDemand sale rest candidates = .ok (o, l₁) ∧
            outcome = o.map (l.noted ⟨purchase, sale⟩)) ∨
          ¬ rest < demand ∧
            (l.dropIfNew ⟨purchase, sale⟩ after).coverDemand sale rest candidates =
              .ok (outcome, l₁)) := by
  by_cases hzero : demand = 0
  · rw [hzero, coverDemand_zero] at h
    obtain ⟨rfl, rfl⟩ := Prod.mk.inj (Except.ok.inj h)
    exact .inl ⟨hzero, by rw [hzero], rfl⟩
  by_cases hself : purchase = sale
  · rw [coverDemand, if_neg hzero, if_pos hself] at h
    exact .inr (.inl ⟨hself, h⟩)
  rw [coverDemand_cons_eq hzero hself] at h
  cases hmade : l.withLot ⟨purchase, sale⟩ with
  | error e =>
    rw [hmade] at h
    obtain ⟨rfl, rfl⟩ := Prod.mk.inj (Except.ok.inj h)
    exact .inr (.inr (.inl ⟨e, rfl, rfl, rfl⟩))
  | ok made =>
    simp only [hmade, bind_eq_ok_iff, Prod.exists] at h
    obtain ⟨rest, after, hgrow, h⟩ := h
    refine .inr (.inr (.inr ⟨made, rest, after, rfl, hgrow, ?_⟩))
    split at h
    · rename_i hless
      simp only [bind_eq_ok_iff, pure_eq_ok_iff, Prod.exists] at h
      obtain ⟨o, l₂, hrest, h⟩ := h
      obtain ⟨rfl, rfl⟩ := Prod.mk.inj h
      exact .inl ⟨hless, o, hrest, rfl⟩
    · rename_i hless
      exact .inr ⟨hless, h⟩

end Turns

/-- What holds before a lot is made, if it has to be, and after it is made holds of the ledger with the
lot. -/
theorem withLot_keeps {P : Ledger → Prop} {key : LotKey} {made : Ledger} (hl : P l)
    (hinsert : ∀ l₁, l.insertLot key = .ok l₁ → P l₁) (h : l.withLot key = .ok made) : P made := by
  unfold withLot at h
  split at h
  · exact Except.ok.inj h ▸ hl
  · exact hinsert made h

/-- What holds of a demand and a ledger, and still does when a lot is made or dropped, or when one grows
and leaves the rest of the demand, holds at the end of a matching. -/
theorem coverDemand_keeps {sale : EntryId} {candidates : List EntryId} {P : Decimal → Ledger → Prop}
    (hinsert : ∀ purchase demand l l₁, P demand l → l.insertLot ⟨purchase, sale⟩ = .ok l₁ →
      P demand l₁)
    (hgrow : ∀ purchase ∈ candidates, ∀ demand rest l l₁, P demand l →
      l.allocateShares ⟨purchase, sale⟩ demand = .ok (rest, l₁) → P rest l₁)
    (hdrop : ∀ purchase demand l lot, P demand l → l.lot? ⟨purchase, sale⟩ = some lot →
      P demand { l with lots := l.lots.erase ⟨purchase, sale⟩ })
    {demand : Decimal} {outcome : Except LedgerError Allocation} (hdemand : P demand l)
    (h : l.coverDemand sale demand candidates = .ok (outcome, l₁)) : ∃ rest, P rest l₁ := by
  induction candidates generalizing l l₁ demand outcome with
  | nil =>
    obtain ⟨-, rfl⟩ := Prod.mk.inj (Except.ok.inj h)
    exact ⟨demand, hdemand⟩
  | cons purchase candidates ih =>
    replace ih {l demand outcome} := @ih l l₁ (fun id hid => hgrow id (List.mem_cons_of_mem _ hid))
      demand outcome
    have hgrow := hgrow purchase List.mem_cons_self
    rcases coverDemand_cons_eq_ok h with
      ⟨-, -, rfl⟩ | ⟨-, h⟩ | ⟨e, -, -, rfl⟩ | ⟨made, rest, after, hmade, hoffer, hrest⟩
    · exact ⟨demand, hdemand⟩
    · exact ih hdemand h
    · exact ⟨demand, hdemand⟩
    · have hmade' : P demand made :=
        withLot_keeps hdemand (fun l₁ => hinsert purchase demand l l₁ hdemand) hmade
      have hthere := hgrow demand rest made after hmade' hoffer
      rcases hrest with ⟨-, o, hrest, -⟩ | ⟨-, hrest⟩
      · exact ih hthere hrest
      · refine ih ?_ hrest
        unfold dropIfNew
        split
        · exact hthere
        · obtain ⟨-, -, -, hkey⟩ := offered_changed hmade hoffer
          obtain ⟨lot, hlot⟩ := Option.isSome_iff_exists.mp hkey
          exact hdrop purchase rest after lot hthere hlot

/--
If that is so wherever the growing of a lot comes out, the matching comes out, or it stops at a contract
that stops the growing of one of its lots. This says that there is a result, which `coverDemand_keeps`
has as its hypothesis; so the induction follows the program and not an inversion of it.
-/
theorem coverDemand_comesOut {sale : EntryId} {candidates : List EntryId} {P : Decimal → Ledger → Prop}
    {broken : LotContract → Prop}
    (hinsert : ∀ purchase demand l l₁, P demand l → l.insertLot ⟨purchase, sale⟩ = .ok l₁ →
      P demand l₁)
    (hgrow : ∀ purchase ∈ candidates, ∀ demand l, P demand l →
      ComesOut (l.allocateShares ⟨purchase, sale⟩ demand) (fun r => P r.1 r.2) broken)
    (hdrop : ∀ purchase demand l, P demand l →
      P demand { l with lots := l.lots.erase ⟨purchase, sale⟩ })
    {demand : Decimal} (hdemand : P demand l) :
    ComesOut (l.coverDemand sale demand candidates) (fun r => ∃ rest, P rest r.2) broken := by
  induction candidates generalizing l demand with
  | nil => exact comesOut_of_eq_ok rfl ⟨demand, hdemand⟩
  | cons purchase candidates ih =>
    replace ih {l demand} := @ih l (fun id hid => hgrow id (List.mem_cons_of_mem _ hid)) demand
    by_cases hzero : demand = 0
    · rw [hzero, coverDemand_zero]
      exact comesOut_of_eq_ok rfl ⟨demand, hdemand⟩
    by_cases hself : purchase = sale
    · rw [coverDemand, if_neg hzero, if_pos hself]
      exact ih hdemand
    rw [coverDemand_cons_eq hzero hself]
    cases hmade : l.withLot ⟨purchase, sale⟩ with
    | error e => exact comesOut_of_eq_ok rfl ⟨demand, hdemand⟩
    | ok made =>
      have hmade' : P demand made :=
        withLot_keeps hdemand (fun l₁ => hinsert purchase demand l l₁ hdemand) hmade
      refine (hgrow purchase List.mem_cons_self demand made hmade').bind ?_
      intro (rest, after) hafter
      show ComesOut (if rest < demand then _ else _) _ _
      split
      · exact (ih hafter).bind fun r hr => comesOut_of_eq_ok rfl hr
      · refine ih ?_
        unfold dropIfNew
        split
        · exact hafter
        · exact hdrop purchase rest after hafter

/-- What matching a sale does to the lots, and what it says about them. Only what it says of a matching
that is not refused is held against what it does. -/
structure Matched (l l₁ : Ledger) (outcome : Except LedgerError Allocation) : Prop where
  changed : Changed l l₁
  same : l.SameButLots l₁
  stays : ∀ key, (l.lot? key).isSome → (l₁.lot? key).isSome
  nodup : ∀ a, outcome = .ok a → a.created.Nodup
  mem_created : ∀ a, outcome = .ok a →
    ∀ key, key ∈ a.created ↔ l.lot? key = none ∧ (l₁.lot? key).isSome

theorem matched_refl (l : Ledger) (demand : Decimal) : Matched l l (.ok ⟨[], [], demand⟩) where
  changed := .refl
  same := rfl
  stays _ h := h
  nodup a ha := by
    obtain rfl := Except.ok.inj ha
    exact .nil
  mem_created a ha key := by
    obtain rfl := Except.ok.inj ha
    simp only [List.not_mem_nil, false_iff, not_and]
    intro h
    simp [h]

/-- What happens before a matching, as long as there are the same lots, may count as part of it. -/
theorem Matched.after {outcome : Except LedgerError Allocation} (h : Matched l₁ l₂ outcome)
    (hchanged : Changed l l₁) (hsame : l.SameButLots l₁)
    (hlots : ∀ key, (l₁.lot? key).isSome = (l.lot? key).isSome) : Matched l l₂ outcome where
  changed := hchanged.trans h.changed
  same := hsame.trans h.same
  stays key hkey := h.stays key (hlots key ▸ hkey)
  nodup := h.nodup
  mem_created a ha key := by
    have hnone : l.lot? key = none ↔ l₁.lot? key = none := by
      rw [← Option.not_isSome_iff_eq_none, ← Option.not_isSome_iff_eq_none, hlots]
    rw [hnone]
    exact h.mem_created a ha key

/-- A lot that takes shares is one more that is named: as new, or as one from before. `h` is the rest of
the matching, which began with the lot in the ledger and so does not name it as new. -/
theorem Matched.note {outcome : Except LedgerError Allocation} {key : LotKey}
    (h : Matched l₁ l₂ outcome) (hchanged : Changed l l₁) (hsame : l.SameButLots l₁)
    (hother : ∀ k, k ≠ key → l₁.lot? k = l.lot? k) (hkey : (l₁.lot? key).isSome) :
    Matched l l₂ (outcome.map (l.noted key)) where
  changed := hchanged.trans h.changed
  same := hsame.trans h.same
  stays k hk := by
    refine h.stays k ?_
    by_cases hkk : k = key
    · exact hkk ▸ hkey
    · exact hother k hkk ▸ hk
  nodup a ha := by
    obtain ⟨b, hb, rfl⟩ := map_eq_ok_iff.mp ha
    have hnew : key ∉ b.created := fun hmem => by
      have := ((h.mem_created b hb key).mp hmem).1
      simp [this] at hkey
    unfold noted
    split
    · exact h.nodup b hb
    · exact List.nodup_cons.mpr ⟨hnew, h.nodup b hb⟩
  mem_created a ha k := by
    obtain ⟨b, hb, rfl⟩ := map_eq_ok_iff.mp ha
    unfold noted
    split
    · rename_i hsome
      rw [h.mem_created b hb]
      by_cases hkk : k = key
      · obtain ⟨lot, hlot⟩ := Option.isSome_iff_exists.mp hsome
        obtain ⟨lot₁, hlot₁⟩ := Option.isSome_iff_exists.mp hkey
        simp [hkk, hlot, hlot₁]
      · rw [hother k hkk]
    · rename_i hnone
      simp only [List.mem_cons, h.mem_created b hb]
      by_cases hkk : k = key
      · simp [hkk, Option.not_isSome_iff_eq_none.mp hnone, h.stays key hkey]
      · simp [hkk, hother k hkk]

/-- The run: a turn that leaves its lot puts one name in front of the rest, and a turn that drops it
again leaves the lots that there were. -/
theorem coverDemand_matched {sale : EntryId} {demand : Decimal} {candidates : List EntryId}
    {outcome : Except LedgerError Allocation}
    (h : l.coverDemand sale demand candidates = .ok (outcome, l₁)) : Matched l l₁ outcome := by
  induction candidates generalizing l l₁ demand outcome with
  | nil =>
    obtain ⟨rfl, rfl⟩ := Prod.mk.inj (Except.ok.inj h)
    exact matched_refl l demand
  | cons purchase candidates ih =>
    rcases coverDemand_cons_eq_ok h with
      ⟨-, rfl, rfl⟩ | ⟨-, h⟩ | ⟨e, -, rfl, rfl⟩ | ⟨made, rest, after, hmade, hoffer, hrest⟩
    · exact matched_refl _ demand
    · exact ih h
    · exact ⟨.refl, rfl, fun _ h => h, (fun _ h => by cases h), fun _ h => by cases h⟩
    · obtain ⟨hchanged, hsame, hother, hkey⟩ := offered_changed hmade hoffer
      rcases hrest with ⟨-, o, hrest, rfl⟩ | ⟨-, hrest⟩
      · exact (ih hrest).note hchanged hsame hother hkey
      · obtain ⟨hdropped, hsame', hlots⟩ := dropIfNew_changed hchanged hsame hother hkey
        exact (ih hrest).after hdropped hsame' hlots

/-- A lot that changed in a matching and is not named by it took shares off a demand that was no smaller
after. -/
theorem coverDemand_overlooks {sale : EntryId} {demand : Decimal} {candidates : List EntryId}
    {a : Allocation} (h : l.coverDemand sale demand candidates = .ok (.ok a, l₁)) {key : LotKey}
    (hne : l₁.lot? key ≠ l.lot? key) (hcreated : key ∉ a.created) (hupdated : key ∉ a.updated) :
    ∃ l₂ demand rest, Changed l l₂ ∧ ∃ g : Growth l₂ key demand,
      demand.sub g.taken = .ok rest ∧ demand ≤ rest := by
  induction candidates generalizing l demand a with
  | nil =>
    obtain ⟨-, rfl⟩ := Prod.mk.inj (Except.ok.inj h)
    exact absurd rfl hne
  | cons purchase candidates ih =>
    -- what comes before a lot is overlooked may leave the lot as it was
    have later {l₂ : Ledger} {demand : Decimal} {b : Allocation} (hchanged : Changed l l₂)
        (h : l₂.coverDemand sale demand candidates = .ok (.ok b, l₁))
        (hsame : l₂.lot? key = l.lot? key) (hcreated : key ∉ b.created)
        (hupdated : key ∉ b.updated) : ∃ l₂ demand rest, Changed l l₂ ∧
          ∃ g : Growth l₂ key demand, demand.sub g.taken = .ok rest ∧ demand ≤ rest := by
      obtain ⟨l₃, demand, rest, hchanged', hgrowth⟩ := ih h (hsame ▸ hne) hcreated hupdated
      exact ⟨l₃, demand, rest, hchanged.trans hchanged', hgrowth⟩
    rcases coverDemand_cons_eq_ok h with
      ⟨-, -, rfl⟩ | ⟨-, h⟩ | ⟨e, -, he, -⟩ | ⟨made, rest, after, hmade, hoffer, hrest⟩
    · exact absurd rfl hne
    · exact later .refl h rfl hcreated hupdated
    · cases he
    · obtain ⟨hchanged, hsame, hother, hkey⟩ := offered_changed hmade hoffer
      rcases hrest with ⟨-, o, hrest, ho⟩ | ⟨hle, hrest⟩
      · obtain ⟨b, rfl, rfl⟩ := map_eq_ok_iff.mp ho.symm
        have hnamed := mt (l.noted_perm _ b).mem_iff.mpr
          (mt List.mem_append.mp (not_or.mpr ⟨hcreated, hupdated⟩))
        obtain ⟨hk, hnot⟩ := not_or.mp (mt List.mem_cons.mpr hnamed)
        obtain ⟨hcreated, hupdated⟩ := not_or.mp (mt List.mem_append.mpr hnot)
        exact later hchanged hrest (hother key hk) hcreated hupdated
      · obtain ⟨hdropped, -, -⟩ := dropIfNew_changed hchanged hsame hother hkey
        by_cases hsame : (l.dropIfNew ⟨purchase, sale⟩ after).lot? key = l.lot? key
        · exact later hdropped hrest hsame hcreated hupdated
        · obtain ⟨rfl, hsome⟩ := eq_of_dropIfNew_ne hother hsame
          rw [withLot, if_pos hsome] at hmade
          rw [dropIfNew, if_pos hsome] at hsame
          obtain rfl := Except.ok.inj hmade
          obtain ⟨g, hg⟩ := growth_of_changed hoffer hsame
          exact ⟨l, demand, rest, .refl, g, hg, Int.not_lt.mp hle⟩

/-- A matching that is refused at once does nothing, and says nothing of lots. -/
theorem matched_refused (l : Ledger) (e : LedgerError) : Matched l l (.error e) :=
  ⟨.refl, rfl, fun _ h => h, (fun _ h => by cases h), fun _ h => by cases h⟩

section Sales

variable {sale : EntryId} {candidates : List EntryId} {outcome : Except LedgerError Allocation}

/-- A sale that is no entry is refused at once; of any other, what lots do not cover yet is covered. -/
theorem allocateLots_cases (h : l.allocateLots sale candidates = .ok (outcome, l₁)) :
    (l.entry? sale = none ∧ outcome = .error (.entryNotFound sale) ∧ l₁ = l) ∨
      ∃ e covered uncovered, l.entry? sale = some e ∧ l.coveredShares sale = .ok covered ∧
        (-e.quantityOrZero).sub covered = .ok uncovered ∧
        l.coverDemand sale (uncovered.max 0) candidates = .ok (outcome, l₁) := by
  rw [allocateLots] at h
  split at h
  · rename_i hnone
    obtain ⟨rfl, rfl⟩ := Prod.mk.inj (Except.ok.inj h)
    exact .inl ⟨hnone, rfl, rfl⟩
  · rename_i e he
    simp only [bind_eq_ok_iff] at h
    obtain ⟨covered, hcovered, uncovered, huncovered, h⟩ := h
    exact .inr ⟨e, covered, uncovered, he, hcovered, huncovered, h⟩

/-- Matching by a strategy is refused at once, or the sale is matched with the unsold purchases of its
account and security, in the order of the strategy. -/
theorem allocateByStrategy_cases {strategy : LotStrategy}
    (h : l.allocateByStrategy sale strategy = .ok (outcome, l₁)) :
    (∃ e, outcome = .error e ∧ l₁ = l) ∨
      ∃ t security purchases sorted, l.owner? sale = some t ∧ t.security = some security ∧
        l.unsoldPurchases t.account security t.date = .ok purchases ∧
        strategy.sort l purchases = .ok sorted ∧ l.allocateLots sale sorted = .ok (outcome, l₁) := by
  rw [allocateByStrategy] at h
  split at h
  · obtain ⟨rfl, rfl⟩ := Prod.mk.inj (Except.ok.inj h)
    exact .inl ⟨_, rfl, rfl⟩
  · rename_i t ht
    split at h
    · obtain ⟨rfl, rfl⟩ := Prod.mk.inj (Except.ok.inj h)
      exact .inl ⟨_, rfl, rfl⟩
    · rename_i security hsecurity
      simp only [bind_eq_ok_iff] at h
      obtain ⟨purchases, hpurchases, sorted, hsorted, h⟩ := h
      exact .inr ⟨t, security, purchases, sorted, ht, hsecurity, hpurchases, hsorted, h⟩

theorem allocateLots_matched (h : l.allocateLots sale candidates = .ok (outcome, l₁)) :
    Matched l l₁ outcome := by
  rcases allocateLots_cases h with ⟨-, rfl, rfl⟩ | ⟨e, covered, uncovered, -, -, -, hcover⟩
  · exact matched_refused l₁ _
  · exact coverDemand_matched hcover

theorem allocateByStrategy_matched {strategy : LotStrategy}
    (h : l.allocateByStrategy sale strategy = .ok (outcome, l₁)) : Matched l l₁ outcome := by
  rcases allocateByStrategy_cases h with ⟨e, rfl, rfl⟩ | ⟨t, security, purchases, sorted, -, -, -, -, h⟩
  · exact matched_refused l₁ e
  · exact allocateLots_matched h

theorem allocateLots_overlooks {a : Allocation} (h : l.allocateLots sale candidates = .ok (.ok a, l₁))
    {key : LotKey} (hne : l₁.lot? key ≠ l.lot? key) (hcreated : key ∉ a.created)
    (hupdated : key ∉ a.updated) :
    ∃ l₂ demand rest, Changed l l₂ ∧ ∃ g : Growth l₂ key demand,
      demand.sub g.taken = .ok rest ∧ demand ≤ rest := by
  rcases allocateLots_cases h with ⟨-, herror, -⟩ | ⟨e, covered, uncovered, -, -, -, hcover⟩
  · cases herror
  · exact coverDemand_overlooks hcover hne hcreated hupdated

end Sales

end Lotbook.Ledger
