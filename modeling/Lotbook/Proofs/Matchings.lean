/-
# Lotbook.Proofs.Matchings -- sales matched with one purchase after another

What holds of every offer carries over to a matching, if nothing in it is rounded (`Ledger.OfferedAll`).
All that it changes is some lots of the sale, each of which it names once, and together they grow by what
they take of the demand (`Ledger.allocateLots_exact`). It goes by the order of the candidates: as long as a
purchase has anything more for the sale, none after it gives any, so that the same matching again finds
nothing left to take (`Ledger.allocateLots_in_order`).
-/
import Lotbook.Proofs.Offers

namespace Lotbook.Ledger

open Decimal

variable {l l₁ : Ledger} {sale : EntryId} {account : AccountId} {candidates : List EntryId}
  {demand : Decimal} {a : Allocation} {key : LotKey}

/-! ## One offer after another -/

/-- What comes of offering a demand to candidates one after another, and what is said of it. -/
inductive OfferedAll (sale : EntryId) (account : AccountId) :
    Ledger → Decimal → List EntryId → Allocation → Ledger → Prop
  | done {l : Ledger} {demand : Decimal} : OfferedAll sale account l demand [] ⟨[], [], demand⟩ l
  | passed {l l₁ : Ledger} {demand : Decimal} {purchase : EntryId} {candidates : List EntryId}
      {a : Allocation} (h : 0 < demand → purchase ≠ sale → l.UsedUp ⟨purchase, sale⟩ account)
      (hrest : OfferedAll sale account l demand candidates a l₁) :
      OfferedAll sale account l demand (purchase :: candidates) a l₁
  | grew {l l₁ : Ledger} {demand rest : Decimal} {purchase : EntryId} {candidates : List EntryId}
      {a : Allocation} {lot : Lot} (h : l.Grew ⟨purchase, sale⟩ account demand rest lot)
      (hrest : OfferedAll sale account { l with lots := l.lots.put lot } rest candidates a l₁) :
      OfferedAll sale account l demand (purchase :: candidates) (l.noted ⟨purchase, sale⟩ a) l₁

/-- A lot that has grown is still one of a purchase that is there. -/
theorem Grew.placed {rest : Decimal} {lot : Lot} (hgrew : l.Grew key account demand rest lot)
    (h : l.Placed sale account) : Placed { l with lots := l.lots.put lot } sale account := by
  have hpurchase : lot.purchase = key.purchase := congrArg LotKey.purchase hgrew.key_eq
  exact h.put (hpurchase ▸ hgrew.entry)

theorem Grew.selling {rest : Decimal} {lot : Lot} (hgrew : l.Grew key account demand rest lot)
    (h : l.Selling sale account) : Selling { l with lots := l.lots.put lot } sale account :=
  ⟨hgrew.placed h.toPlaced, h.outward⟩

/-- A matching without rounding is one offer after another, each from what the one before left, of the
demand and of the ledger. -/
theorem Placed.offeredAll (h : l.Placed sale account)
    (honce : ∀ purchase ∈ candidates, l.TakesOnce ⟨purchase, sale⟩ account) (hdemand : 0 ≤ demand)
    (hexact : Throughout (offer sale) (OffersExactly sale) (demand, l) candidates)
    (hcover : l.coverDemand sale demand candidates = .ok (.ok a, l₁)) :
    OfferedAll sale account l demand candidates a l₁ := by
  induction candidates generalizing l demand a with
  | nil =>
    obtain ⟨ha, rfl⟩ := Prod.mk.inj (Except.ok.inj hcover)
    obtain rfl := Except.ok.inj ha
    exact .done
  | cons purchase candidates ih =>
    obtain ⟨rest, l₂, b, hoffer, hrest, rfl⟩ := exists_offer hcover
    obtain ⟨hfirst, hothers⟩ := hexact.of_cons hoffer
    obtain ⟨honce_first, honce_others⟩ := List.forall_mem_cons.mp honce
    cases h.offered honce_first hdemand hfirst hoffer with
    | passed hused =>
      -- an offer that is passed over is not noted
      rw [if_neg (show ¬ demand < demand from Int.lt_irrefl demand.units)]
      exact .passed hused (ih h honce_others hdemand hothers hrest)
    | grew _ hgrew =>
      rw [if_pos hgrew.less]
      exact .grew hgrew (ih (hgrew.placed h) (fun p hp => (honce_others p hp).put _) hgrew.nonneg
        hothers hrest)

namespace OfferedAll

theorem sameButLots (h : OfferedAll sale account l demand candidates a l₁) : l.SameButLots l₁ := by
  induction h with
  | done => exact .refl _
  | passed _ _ ih => exact ih
  | grew _ _ ih => exact (sameButLots_mk ..).trans ih

/-- What is left of the demand is a part of it. -/
theorem unallocated_le (h : OfferedAll sale account l demand candidates a l₁) (hdemand : 0 ≤ demand) :
    0 ≤ a.unallocated.units ∧ a.unallocated.units ≤ demand.units := by
  induction h with
  | done => exact ⟨hdemand, Int.le_refl _⟩
  | passed _ _ ih => exact ih hdemand
  | grew hgrew _ ih =>
    rw [unallocated_noted]
    obtain ⟨hnonneg, hle⟩ := ih hgrew.nonneg
    exact ⟨hnonneg, hle.trans (Int.le_of_lt hgrew.less)⟩

/-- As much as is taken of the demand is covered more. -/
theorem lotSum_covered (h : OfferedAll sale account l demand candidates a l₁) :
    l₁.lotSum (covered sale) =
      l.lotSum (covered sale) + (demand.units - a.unallocated.units) := by
  induction h with
  | done => rw [Int.sub_self, Int.add_zero]
  | passed _ _ ih => exact ih
  | @grew l _ _ _ _ _ _ lot hgrew _ ih =>
    have hput := l.lotSum_covered_put sale hgrew.key_eq rfl
    have hshares := hgrew.shares
    rw [unallocated_noted]
    omega

/-- Whoever is used up before is passed over, and stays used up. -/
theorem usedUp (h : OfferedAll sale account l demand candidates a l₁) (honce : l.TakesOnce key account)
    (hsale : key.sale = sale) (hused : l.UsedUp key account) :
    l₁.UsedUp key account ∧ key ∉ a.created ++ a.updated := by
  induction h with
  | done => exact ⟨hused, List.not_mem_nil⟩
  | passed _ _ ih => exact ih honce hused
  | @grew l _ _ _ purchase _ _ lot hgrew _ ih =>
    have hother : (⟨purchase, sale⟩ : LotKey) ≠ key := fun heq => hgrew.room (heq ▸ hused)
    have hput := hused.put honce ((congrArg LotKey.sale hgrew.key_eq).trans hsale.symm)
      (hgrew.key_eq ▸ hother)
    obtain ⟨hafter, hnot⟩ := ih (honce.put lot) hput
    exact ⟨hafter, fun hmem => (List.mem_cons.mp ((noted_perm ..).mem_iff.mp hmem)).elim hother.symm hnot⟩

/-- What has changed is named. -/
theorem named_of_ne (h : OfferedAll sale account l demand candidates a l₁)
    (hne : l₁.lot? key ≠ l.lot? key) : key ∈ a.created ++ a.updated := by
  induction h with
  | done => exact absurd rfl hne
  | passed _ _ ih => exact ih hne
  | @grew l _ _ _ purchase _ a _ hgrew _ ih =>
    apply (l.noted_perm ⟨purchase, sale⟩ a).mem_iff.mpr
    by_cases hkey : key = ⟨purchase, sale⟩
    · exact List.mem_cons.mpr (.inl hkey)
    · apply List.mem_cons_of_mem
      apply ih
      rwa [lot?_put, hgrew.key_eq, if_neg hkey]

/-- What is named is a lot of the sale and of a candidate. -/
theorem candidate_of_named (h : OfferedAll sale account l demand candidates a l₁)
    (hmem : key ∈ a.created ++ a.updated) : key.sale = sale ∧ key.purchase ∈ candidates := by
  induction h with
  | done => exact absurd hmem List.not_mem_nil
  | passed _ _ ih => exact (ih hmem).imp_right (List.mem_cons_of_mem _)
  | grew _ _ ih =>
    rcases List.mem_cons.mp ((noted_perm ..).mem_iff.mp hmem) with rfl | hmem
    · exact ⟨rfl, List.mem_cons_self⟩
    · exact (ih hmem).imp_right (List.mem_cons_of_mem _)

/-- Lots grow only while anything is demanded. -/
theorem pos_of_mem (h : OfferedAll sale account l demand candidates a l₁)
    (hmem : key ∈ a.created ++ a.updated) : 0 < demand := by
  induction h with
  | done => exact absurd hmem List.not_mem_nil
  | passed _ _ ih => exact ih hmem
  | grew hgrew => exact Int.lt_of_le_of_lt hgrew.nonneg hgrew.less

/-- A lot that grows does not grow again. -/
theorem not_mem_of_grew {rest : Decimal} {purchase : EntryId} {lot : Lot}
    (hgrew : l.Grew ⟨purchase, sale⟩ account demand rest lot)
    (honce : l.TakesOnce ⟨purchase, sale⟩ account)
    (h : OfferedAll sale account { l with lots := l.lots.put lot } rest candidates a l₁) :
    ⟨purchase, sale⟩ ∉ a.created ++ a.updated := fun hmem =>
  (h.usedUp (honce.put lot) rfl (hgrew.full (h.pos_of_mem hmem))).2 hmem

end OfferedAll

/-! ## What a matching names -/

/-- The lots of a sale that are named are those that have grown, each is named once, as one that was there
or one that was not, and no other lot has changed. -/
structure Names (l : Ledger) (sale : EntryId) (a : Allocation) (l₁ : Ledger) : Prop where
  nodup : (a.created ++ a.updated).Nodup
  created : ∀ key ∈ a.created, l.lot? key = none
  updated : ∀ key ∈ a.updated, ∃ lot, l.lot? key = some lot
  grows : ∀ key ∈ a.created ++ a.updated, key.sale = sale ∧ ∃ lot₁, l₁.lot? key = some lot₁ ∧
    (l.lotOrEmpty key).adjustedShares < lot₁.adjustedShares
  others : ∀ key, key ∉ a.created ++ a.updated → l₁.lot? key = l.lot? key

theorem names_refl (l : Ledger) (sale : EntryId) (demand : Decimal) :
    l.Names sale ⟨[], [], demand⟩ l where
  nodup := .nil
  created _ h := absurd h List.not_mem_nil
  updated _ h := absurd h List.not_mem_nil
  grows _ h := absurd h List.not_mem_nil
  others _ _ := rfl

/-- One lot more that grows is named first. -/
theorem Names.grow {lot : Lot} (h : Names { l with lots := l.lots.put lot } sale a l₁)
    (hkey : lot.key = key) (hsale : key.sale = sale)
    (hgrows : (l.lotOrEmpty key).adjustedShares < lot.adjustedShares)
    (hnew : key ∉ a.created ++ a.updated) : l.Names sale (l.noted key a) l₁ := by
  have hmem (k : LotKey) := (l.noted_perm key a).mem_iff (a := k)
  obtain ⟨hnot_created, hnot_updated⟩ := not_or.mp (mt List.mem_append.mpr hnew)
  have hother {k : LotKey} (hk : k ≠ key) : lot? { l with lots := l.lots.put lot } k = l.lot? k := by
    rw [lot?_put, hkey, if_neg hk]
  have hlot₁ : l₁.lot? key = some lot := by rw [h.others key hnew, lot?_put, if_pos hkey.symm]
  refine ⟨?_, ?_, ?_, ?_, ?_⟩
  · exact (l.noted_perm key a).nodup_iff.mpr (List.nodup_cons.mpr ⟨hnew, h.nodup⟩)
  · have before {k : LotKey} (hk : k ∈ a.created) : l.lot? k = none :=
      hother (fun heq => hnot_created (heq ▸ hk)) ▸ h.created k hk
    intro k hk
    unfold noted at hk
    split at hk
    · exact before hk
    · rename_i hnone
      rcases List.mem_cons.mp hk with rfl | hk
      · exact Option.not_isSome_iff_eq_none.mp hnone
      · exact before hk
  · have before {k : LotKey} (hk : k ∈ a.updated) : ∃ x, l.lot? k = some x :=
      hother (fun heq => hnot_updated (heq ▸ hk)) ▸ h.updated k hk
    intro k hk
    unfold noted at hk
    split at hk
    · rename_i hsome
      rcases List.mem_cons.mp hk with rfl | hk
      · exact Option.isSome_iff_exists.mp hsome
      · exact before hk
    · exact before hk
  · intro k hk
    rcases List.mem_cons.mp ((hmem k).mp hk) with rfl | hk
    · exact ⟨hsale, lot, hlot₁, hgrows⟩
    · have hne : k ≠ key := fun heq => hnew (heq ▸ hk)
      obtain ⟨hk_sale, lot₁, hlot₁, hless⟩ := h.grows k hk
      rw [lotOrEmpty, hother hne] at hless
      exact ⟨hk_sale, lot₁, hlot₁, hless⟩
  · intro k hk
    obtain ⟨hne, hk⟩ := not_or.mp (mt List.mem_cons.mpr (mt (hmem k).mpr hk))
    rw [h.others k hk, hother hne]

/-- Since no lot grows twice, each that does is named once. -/
theorem OfferedAll.names (h : OfferedAll sale account l demand candidates a l₁)
    (hselling : l.Selling sale account) : l.Names sale a l₁ := by
  induction h with
  | done => exact names_refl ..
  | passed _ _ ih => exact ih hselling
  | @grew l _ demand rest purchase _ _ lot hgrew hrest ih =>
    have hshares := hgrew.shares
    have hless : rest.units < demand.units := hgrew.less
    have hgrows : (l.lotOrEmpty ⟨purchase, sale⟩).adjustedShares.units < lot.adjustedShares.units := by
      omega
    exact (ih (hgrew.selling hselling)).grow hgrew.key_eq rfl hgrows
      (hrest.not_mem_of_grew hgrew (hselling.takesOnce rfl))

namespace Names

variable (h : l.Names sale a l₁)
include h

/-- The lots that are named as made are those that were not there before and are now. -/
theorem mem_created_iff : key ∈ a.created ↔ l.lot? key = none ∧ (l₁.lot? key).isSome := by
  refine ⟨fun hmem => ⟨h.created key hmem, ?_⟩, fun ⟨hbefore, hafter⟩ => ?_⟩
  · obtain ⟨-, lot₁, hlot₁, -⟩ := h.grows key (List.mem_append_left _ hmem)
    rw [hlot₁]
    rfl
  · by_contra hnot
    rcases Decidable.em (key ∈ a.updated) with hupdated | hupdated
    · obtain ⟨lot, hlot⟩ := h.updated key hupdated
      rw [hbefore] at hlot
      cases hlot
    · rw [h.others key (mt List.mem_append.mp (not_or.mpr ⟨hnot, hupdated⟩)), hbefore] at hafter
      cases hafter

/-- A lot that was made has shares, since it grew from none. -/
theorem pos_of_mem_created (hmem : key ∈ a.created) {lot₁ : Lot} (hlot₁ : l₁.lot? key = some lot₁) :
    0 < lot₁.adjustedShares := by
  obtain ⟨-, lot, hlot, hless⟩ := h.grows key (List.mem_append_left _ hmem)
  obtain rfl := Option.some.inj (hlot.symm.trans hlot₁)
  rw [lotOrEmpty, h.created key hmem] at hless
  exact hless

/-- The lots that are named as grown are those that were there and have more shares now. -/
theorem mem_updated_iff : key ∈ a.updated ↔ ∃ lot lot₁, l.lot? key = some lot ∧
    l₁.lot? key = some lot₁ ∧ lot.adjustedShares < lot₁.adjustedShares := by
  refine ⟨fun hmem => ?_, fun ⟨lot, lot₁, hlot, hlot₁, hless⟩ => ?_⟩
  · obtain ⟨lot, hlot⟩ := h.updated key hmem
    obtain ⟨-, lot₁, hlot₁, hless⟩ := h.grows key (List.mem_append_right _ hmem)
    rw [lotOrEmpty_of_lot? hlot] at hless
    exact ⟨lot, lot₁, hlot, hlot₁, hless⟩
  · by_contra hnot
    rcases Decidable.em (key ∈ a.created) with hcreated | hcreated
    · rw [h.created key hcreated] at hlot
      cases hlot
    · rw [h.others key (mt List.mem_append.mp (not_or.mpr ⟨hcreated, hnot⟩)), hlot] at hlot₁
      obtain rfl := Option.some.inj hlot₁
      exact Int.lt_irrefl _ hless

/-- No lot shrinks. -/
theorem exists_le {lot : Lot} (hlot : l.lot? key = some lot) :
    ∃ lot₁, l₁.lot? key = some lot₁ ∧ lot.adjustedShares ≤ lot₁.adjustedShares := by
  by_cases hmem : key ∈ a.created ++ a.updated
  · obtain ⟨-, lot₁, hlot₁, hless⟩ := h.grows key hmem
    rw [lotOrEmpty_of_lot? hlot] at hless
    exact ⟨lot₁, hlot₁, Int.le_of_lt hless⟩
  · exact ⟨lot, (h.others key hmem).trans hlot, Int.le_refl _⟩

end Names

/-! ## Matching a sale -/

/-- The shares of a sale that its lots do not cover, or less than nothing if they cover more than that. -/
def lacking (l : Ledger) (sale : EntryId) : Int :=
  -((l.entry? sale).elim 0 Entry.quantityOrZero).units - l.lotSum (covered sale)

/-- Whether nothing is rounded when a sale is matched with candidates. -/
structure MatchesExactly (l : Ledger) (sale : EntryId) (candidates : List EntryId) : Prop where
  sums : ∀ u ∈ partialSums ((l.lotsBySale sale).map Lot.adjustedShares), Representable u
  lack : Representable (l.lacking sale)
  offers : Throughout (offer sale) (OffersExactly sale)
    ((⟨l.lacking sale, lack⟩ : Decimal).max 0, l) candidates

instance (l : Ledger) (sale : EntryId) (candidates : List EntryId) :
    Decidable (l.MatchesExactly sale candidates) :=
  decidable_of_iff
    ((∀ u ∈ partialSums ((l.lotsBySale sale).map Lot.adjustedShares), Representable u) ∧
      ∃ lack : Representable (l.lacking sale), Throughout (offer sale) (OffersExactly sale)
        ((⟨l.lacking sale, lack⟩ : Decimal).max 0, l) candidates)
    ⟨fun ⟨sums, lack, offers⟩ => ⟨sums, lack, offers⟩, fun ⟨sums, lack, offers⟩ => ⟨sums, lack, offers⟩⟩

/-- Without rounding, what is offered to the candidates is what the sale lacks. -/
theorem MatchesExactly.allocateLots_eq (h : l.MatchesExactly sale candidates) {e : Entry}
    (he : l.entry? sale = some e) : l.allocateLots sale candidates =
      l.coverDemand sale ((⟨l.lacking sale, h.lack⟩ : Decimal).max 0) candidates := by
  obtain ⟨c, hc, hunits⟩ := sum_exact h.sums
  have hlack : (-e.quantityOrZero).units - c.units = l.lacking sale := by
    rw [lacking, he, units_neg, hunits, sum_adjustedShares]
    rfl
  have hsub := sub_eq_ok (hlack ▸ h.lack)
  rw [allocateLots, he]
  simp only [coveredShares, hc, hsub, bind, Except.bind]
  exact congrArg (fun d : Decimal => l.coverDemand sale (d.max 0) candidates) (ext_units hlack)

theorem exists_entry_of_allocateLots (h : l.allocateLots sale candidates = .ok (.ok a, l₁)) :
    ∃ e, l.entry? sale = some e := by
  rcases allocateLots_cases h with ⟨-, herror, -⟩ | ⟨e, _, _, he, -⟩
  · cases herror
  · exact ⟨e, he⟩

/-- A matching without rounding, as a run of offers. -/
theorem MatchesExactly.offeredAll_of_takesOnce (hexact : l.MatchesExactly sale candidates)
    (hplaced : l.Placed sale account)
    (honce : ∀ purchase ∈ candidates, l.TakesOnce ⟨purchase, sale⟩ account)
    (hmatch : l.allocateLots sale candidates = .ok (.ok a, l₁)) :
    ∃ demand : Decimal, demand.units = Max.max (l.lacking sale) 0 ∧
      OfferedAll sale account l demand candidates a l₁ := by
  obtain ⟨e, he⟩ := exists_entry_of_allocateLots hmatch
  rw [hexact.allocateLots_eq he] at hmatch
  have hunits := units_max ⟨l.lacking sale, hexact.lack⟩ 0
  refine ⟨_, hunits, hplaced.offeredAll honce ?_ hexact.offers hmatch⟩
  show 0 ≤ Decimal.units _
  rw [hunits]
  exact Int.le_max_right ..

theorem MatchesExactly.offeredAll (hexact : l.MatchesExactly sale candidates)
    (hselling : l.Selling sale account)
    (hmatch : l.allocateLots sale candidates = .ok (.ok a, l₁)) :
    ∃ demand : Decimal, demand.units = Max.max (l.lacking sale) 0 ∧
      OfferedAll sale account l demand candidates a l₁ :=
  hexact.offeredAll_of_takesOnce hselling.toPlaced (fun _ _ => hselling.takesOnce rfl) hmatch

/-- Matching a sale covers as much of it more as it takes of what the sale lacked. The lots that it says it
made are those that were not there before, and they have shares; the lots that it says grew are those that
did. It names no lot twice, no lot shrinks, and all else is left as it is. -/
theorem allocateLots_exact (h : l.Reachable) (hinternal : l.isInternal sale = false)
    (hexact : l.MatchesExactly sale candidates)
    (hmatch : l.allocateLots sale candidates = .ok (.ok a, l₁)) :
    0 ≤ a.unallocated.units ∧ a.unallocated.units ≤ Max.max (l.lacking sale) 0 ∧
      l₁.lotSum (covered sale) =
        l.lotSum (covered sale) + (Max.max (l.lacking sale) 0 - a.unallocated.units) ∧
      (∀ key, key ∈ a.created ↔ l.lot? key = none ∧ (l₁.lot? key).isSome) ∧
      (∀ key ∈ a.created, ∀ lot₁, l₁.lot? key = some lot₁ → 0 < lot₁.adjustedShares) ∧
      (∀ key, key ∈ a.updated ↔ ∃ lot lot₁, l.lot? key = some lot ∧ l₁.lot? key = some lot₁ ∧
        lot.adjustedShares < lot₁.adjustedShares) ∧
      (a.created ++ a.updated).Nodup ∧ (∀ key ∈ a.created ++ a.updated, key.sale = sale) ∧
      (∀ key lot, l.lot? key = some lot →
        ∃ lot₁, l₁.lot? key = some lot₁ ∧ lot.adjustedShares ≤ lot₁.adjustedShares) ∧
      (∀ key, key ∉ a.created ++ a.updated → l₁.lot? key = l.lot? key) ∧ l.SameButLots l₁ := by
  obtain ⟨e, he⟩ := exists_entry_of_allocateLots hmatch
  obtain ⟨seller, hseller, -⟩ := h.sound.exists_owner he
  have hselling := h.selling (isBookedIn_eq_true.mpr ⟨seller, hseller, rfl⟩) hinternal
  obtain ⟨demand, hdemand, hoffered⟩ := hexact.offeredAll hselling hmatch
  have hnames := hoffered.names hselling
  have hdemand_nonneg : 0 ≤ demand.units := hdemand ▸ Int.le_max_right ..
  obtain ⟨hnonneg, hle⟩ := hoffered.unallocated_le hdemand_nonneg
  rw [← hdemand]
  exact ⟨hnonneg, hle, hoffered.lotSum_covered, fun _ => hnames.mem_created_iff,
    fun _ hmem _ hlot₁ => hnames.pos_of_mem_created hmem hlot₁, fun _ => hnames.mem_updated_iff,
    hnames.nodup, fun key hmem => (hnames.grows key hmem).1, fun _ _ hlot => hnames.exists_le hlot,
    hnames.others, hoffered.sameButLots⟩

/-- Six shares are to be sold where four have been moved to and one has been bought. One of them is covered
already. -/
def soldShort : List Edit :=
  movedToSell ++ [.setQuantity ⟨9⟩ (some (-.whole 6)), .addTransaction ⟨8⟩ (.june 21) (some ⟨1⟩),
    .addEntry ⟨10⟩ none (some 1) none, .insertLot ⟨⟨3⟩, ⟨9⟩⟩, .setLotShares ⟨⟨3⟩, ⟨9⟩⟩ 1]

/-- The sale is among its own candidates, and each of its purchases is there twice. -/
theorem allocateLots_exact_soldShort :
    ∃ (l l₁ : Ledger) (a : Allocation), l.Reachable ∧ l.isInternal ⟨9⟩ = false ∧
      l.MatchesExactly ⟨9⟩ [⟨3⟩, ⟨9⟩, ⟨3⟩, ⟨11⟩, ⟨11⟩] ∧
      l.allocateLots ⟨9⟩ [⟨3⟩, ⟨9⟩, ⟨3⟩, ⟨11⟩, ⟨11⟩] = .ok (.ok a, l₁) ∧ a.created = [⟨⟨11⟩, ⟨9⟩⟩] ∧
      a.updated = [⟨⟨3⟩, ⟨9⟩⟩] ∧ a.unallocated = 1 ∧ (a.created ++ a.updated).Nodup ∧
      l₁.lotSum (covered ⟨9⟩) =
        l.lotSum (covered ⟨9⟩) + (Max.max (l.lacking ⟨9⟩) 0 - a.unallocated.units) ∧
      l.SameButLots l₁ := by
  have hcheck : (((Ledger.new .standard).performAll soldShort).toOption.any fun l =>
      (l.allocateLots ⟨9⟩ [⟨3⟩, ⟨9⟩, ⟨3⟩, ⟨11⟩, ⟨11⟩]).toOption.any fun r => r.1.toOption.any fun a =>
        l.isInternal ⟨9⟩ = false ∧ l.MatchesExactly ⟨9⟩ [⟨3⟩, ⟨9⟩, ⟨3⟩, ⟨11⟩, ⟨11⟩] ∧
        a.created = [⟨⟨11⟩, ⟨9⟩⟩] ∧ a.updated = [⟨⟨3⟩, ⟨9⟩⟩] ∧ a.unallocated = 1) = true := by
    decide +kernel
  obtain ⟨l, hl, hcheck⟩ := exists_ok_of_any hcheck
  obtain ⟨⟨outcome, l₁⟩, hmatch, hcheck⟩ := exists_ok_of_any hcheck
  obtain ⟨a, rfl, hcheck⟩ := exists_ok_of_any hcheck
  obtain ⟨hinternal, hexact, hcreated, hupdated, hleft⟩ := of_decide_eq_true hcheck
  have hreachable := (Reachable.new .standard).performAll hl
  obtain ⟨-, -, hsum, -, -, -, hnodup, -, -, -, hsame⟩ :=
    allocateLots_exact hreachable hinternal hexact hmatch
  exact ⟨l, l₁, a, hreachable, hinternal, hexact, hmatch, hcreated, hupdated, hleft, hnodup, hsum, hsame⟩

/-! ## The order of the candidates -/

namespace OfferedAll

theorem selling (h : OfferedAll sale account l demand candidates a l₁)
    (hselling : l.Selling sale account) : l₁.Selling sale account := by
  induction h with
  | done => exact hselling
  | passed _ _ ih => exact ih hselling
  | grew hgrew _ ih => exact ih (hgrew.selling hselling)

/-- What is left of the demand was left by all candidates. -/
theorem usedUp_of_rest (h : OfferedAll sale account l demand candidates a l₁) {purchase : EntryId}
    (honce : l.TakesOnce ⟨purchase, sale⟩ account) (hdemand : 0 ≤ demand)
    (hleft : 0 < a.unallocated.units) (hmem : purchase ∈ candidates) (hself : purchase ≠ sale) :
    l₁.UsedUp ⟨purchase, sale⟩ account := by
  induction h with
  | done => exact absurd hmem List.not_mem_nil
  | passed hused hrest ih =>
    rcases List.mem_cons.mp hmem with rfl | hmem
    · have hpos := Int.lt_of_lt_of_le hleft (hrest.unallocated_le hdemand).2
      exact (hrest.usedUp honce rfl (hused hpos hself)).1
    · exact ih honce hdemand hleft hmem
  | @grew _ _ _ _ _ _ _ lot hgrew hrest ih =>
    rw [unallocated_noted] at hleft
    rcases List.mem_cons.mp hmem with rfl | hmem
    · have hpos := Int.lt_of_lt_of_le hleft (hrest.unallocated_le hgrew.nonneg).2
      exact (hrest.usedUp (honce.put lot) rfl (hgrew.full hpos)).1
    · exact ih (honce.put lot) hgrew.nonneg hleft hmem

/-- If some of the demand is left, all candidates are used up. -/
theorem usedUp_of_unallocated (h : OfferedAll sale account l demand candidates a l₁)
    (hselling : l.Selling sale account) (hdemand : 0 ≤ demand) (hleft : 0 < a.unallocated.units) :
    ∀ purchase ∈ candidates, purchase ≠ sale → l₁.UsedUp ⟨purchase, sale⟩ account :=
  fun _ hmem hself => h.usedUp_of_rest (hselling.takesOnce rfl) hdemand hleft hmem hself

/-- What a purchase gives was left by all candidates before it. -/
theorem usedUp_of_later {before after : List EntryId} {purchase last : EntryId}
    (h : OfferedAll sale account l demand candidates a l₁)
    (honce : l.TakesOnce ⟨purchase, sale⟩ account)
    (hcandidates : candidates = before ++ last :: after) (hlast : last ∉ before)
    (hnamed : ⟨last, sale⟩ ∈ a.created ++ a.updated) (hmem : purchase ∈ before)
    (hself : purchase ≠ sale) : l₁.UsedUp ⟨purchase, sale⟩ account := by
  induction h generalizing before with
  | done => exact absurd hnamed List.not_mem_nil
  | passed hused hrest ih =>
    cases before with
    | nil => exact absurd hmem List.not_mem_nil
    | cons first before =>
      obtain ⟨rfl, rfl⟩ := List.cons.inj hcandidates
      rcases List.mem_cons.mp hmem with rfl | hmem
      · exact (hrest.usedUp honce rfl (hused (hrest.pos_of_mem hnamed) hself)).1
      · exact ih honce rfl (fun hin => hlast (List.mem_cons_of_mem _ hin)) hnamed hmem
  | @grew _ _ _ _ first _ _ lot hgrew hrest ih =>
    cases before with
    | nil => exact absurd hmem List.not_mem_nil
    | cons _ before =>
      obtain ⟨rfl, rfl⟩ := List.cons.inj hcandidates
      have hother : last ≠ first := fun heq => hlast (heq ▸ List.mem_cons_self)
      have hlater := (List.mem_cons.mp ((noted_perm ..).mem_iff.mp hnamed)).resolve_left
        fun heq => hother (congrArg LotKey.purchase heq)
      rcases List.mem_cons.mp hmem with rfl | hmem
      · exact (hrest.usedUp (honce.put lot) rfl (hgrew.full (hrest.pos_of_mem hlater))).1
      · exact ih (honce.put lot) rfl (fun hin => hlast (List.mem_cons_of_mem _ hin)) hlater hmem

/-- If a candidate gives anything, all before it are used up. -/
theorem usedUp_of_mem {before after : List EntryId} {last : EntryId}
    (h : OfferedAll sale account l demand candidates a l₁) (hselling : l.Selling sale account)
    (hcandidates : candidates = before ++ last :: after) (hlast : last ∉ before)
    (hnamed : ⟨last, sale⟩ ∈ a.created ++ a.updated) :
    ∀ purchase ∈ before, purchase ≠ sale → l₁.UsedUp ⟨purchase, sale⟩ account :=
  fun _ hmem hself => h.usedUp_of_later (hselling.takesOnce rfl) hcandidates hlast hnamed hmem hself

end OfferedAll

/-- Whether a lot has at least as many shares as may back it, as these are computed. -/
def IsExhausted (l : Ledger) (key : LotKey) (account : AccountId) : Prop :=
  ∃ backed, l.backing key account = .ok backed ∧ backed ≤ (l.lotOrEmpty key).adjustedShares

theorem UsedUp.isExhausted_of_owner (h : l.UsedUp key account) {buyer : Transaction}
    (hbuyer : l.owner? key.purchase = some buyer) (hexact : l.SuppliesExactly key account) :
    l.IsExhausted key account := by
  obtain ⟨total, backed, htotal, hbacked, hle⟩ := h.full
  refine ⟨backed, ?_, hle⟩
  rw [hexact.backing_eq hbuyer, ← hbacked]
  exact congrArg _ (ext_units htotal.symm)

/-- A purchase that is used up is found to be exhausted wherever what backs the lot is computed exactly. -/
theorem UsedUp.isExhausted (h : l.UsedUp key account) (hselling : l.Selling sale account)
    (hexact : l.SuppliesExactly key account) : l.IsExhausted key account := by
  obtain ⟨e, he⟩ := h.entry
  obtain ⟨buyer, hbuyer⟩ := hselling.owned key.purchase e he
  exact h.isExhausted_of_owner hbuyer hexact

/-- Nothing comes of a demand that is offered to candidates that are all used up. -/
theorem Selling.coverDemand_of_usedUp (h : l.Selling sale account) (hdemand : 0 ≤ demand)
    (hused : ∀ purchase ∈ candidates, purchase ≠ sale → l.UsedUp ⟨purchase, sale⟩ account)
    (hexact : Throughout (offer sale) (OffersExactly sale) (demand, l) candidates) :
    l.coverDemand sale demand candidates = .ok (.ok ⟨[], [], demand⟩, l) := by
  induction candidates with
  | nil => rfl
  | cons purchase candidates ih =>
    have hoffer := h.offer_of_usedUp (h.takesOnce rfl) hdemand (hused purchase List.mem_cons_self) hexact.1
    rw [coverDemand_of_passed hoffer]
    exact ih (fun p hp => hused p (List.mem_cons_of_mem _ hp)) (hexact.of_cons hoffer).2

/-- A sale takes all that a purchase has for it before it takes any of the next, and it takes all of them if
it still lacks some. Matching it again finds nothing to take, and lacks as much. -/
theorem allocateLots_in_order (h : l.Reachable) (hbooked : l.isBookedIn account sale = true)
    (hinternal : l.isInternal sale = false) (hexact : l.MatchesExactly sale candidates)
    (hmatch : l.allocateLots sale candidates = .ok (.ok a, l₁)) :
    (∀ before last after, candidates = before ++ last :: after → last ∉ before →
        (l.lotOrEmpty ⟨last, sale⟩).adjustedShares < (l₁.lotOrEmpty ⟨last, sale⟩).adjustedShares →
        ∀ purchase ∈ before, purchase ≠ sale → l₁.SuppliesExactly ⟨purchase, sale⟩ account →
          l₁.IsExhausted ⟨purchase, sale⟩ account) ∧
      (0 < a.unallocated → ∀ purchase ∈ candidates, purchase ≠ sale →
        l₁.SuppliesExactly ⟨purchase, sale⟩ account → l₁.IsExhausted ⟨purchase, sale⟩ account) ∧
      (l₁.MatchesExactly sale candidates →
        l₁.allocateLots sale candidates = .ok (.ok ⟨[], [], a.unallocated⟩, l₁)) := by
  have hselling := h.selling hbooked hinternal
  obtain ⟨demand, hdemand, hoffered⟩ := hexact.offeredAll hselling hmatch
  have hselling₁ := hoffered.selling hselling
  have hnonneg : 0 ≤ demand.units := hdemand ▸ Int.le_max_right ..
  have hbounds := hoffered.unallocated_le hnonneg
  refine ⟨?_, ?_, fun hexact₁ => ?_⟩
  · intro before last after hcandidates hlast hgrew purchase hmem hself hsupplies
    have hnamed : ⟨last, sale⟩ ∈ a.created ++ a.updated := by
      by_contra hnot
      rw [lotOrEmpty, lotOrEmpty, (hoffered.names hselling).others _ hnot] at hgrew
      exact Int.lt_irrefl _ hgrew
    exact (hoffered.usedUp_of_mem hselling hcandidates hlast hnamed purchase hmem hself).isExhausted
      hselling₁ hsupplies
  · intro hleft purchase hmem hself hsupplies
    exact (hoffered.usedUp_of_unallocated hselling hnonneg hleft purchase hmem hself).isExhausted
      hselling₁ hsupplies
  · have hentry : l₁.entry? sale = l.entry? sale := by
      rw [hoffered.sameButLots]
      rfl
    have hlacking : Max.max (l₁.lacking sale) 0 = a.unallocated.units := by
      rw [lacking, hentry, hoffered.lotSum_covered]
      unfold lacking at hdemand
      omega
    obtain ⟨e, he⟩ := exists_entry_of_allocateLots hmatch
    have hagain : (⟨l₁.lacking sale, hexact₁.lack⟩ : Decimal).max 0 = a.unallocated :=
      ext_units ((units_max ..).trans hlacking)
    have hoffers := hexact₁.offers
    rw [hexact₁.allocateLots_eq (hentry.trans he)]
    rw [hagain] at hoffers ⊢
    by_cases hzero : a.unallocated = 0
    · rw [hzero]
      exact coverDemand_zero ..
    · have hleft : 0 < a.unallocated := pos_of_ne_zero hbounds.1 hzero
      exact hselling₁.coverDemand_of_usedUp hbounds.1
        (hoffered.usedUp_of_unallocated hselling hnonneg hleft) hoffers

/-- The purchase that was moved gives all that it has before the other is asked. -/
theorem allocateLots_in_order_soldShort :
    ∃ (l l₁ : Ledger) (a : Allocation), l.Reachable ∧ l.isBookedIn ⟨8⟩ ⟨9⟩ = true ∧
      l.isInternal ⟨9⟩ = false ∧ l.MatchesExactly ⟨9⟩ [⟨3⟩, ⟨9⟩, ⟨11⟩] ∧
      l.allocateLots ⟨9⟩ [⟨3⟩, ⟨9⟩, ⟨11⟩] = .ok (.ok a, l₁) ∧
      (l.lotOrEmpty ⟨⟨11⟩, ⟨9⟩⟩).adjustedShares < (l₁.lotOrEmpty ⟨⟨11⟩, ⟨9⟩⟩).adjustedShares ∧
      l₁.SuppliesExactly ⟨⟨3⟩, ⟨9⟩⟩ ⟨8⟩ ∧ l₁.IsExhausted ⟨⟨3⟩, ⟨9⟩⟩ ⟨8⟩ ∧ 0 < a.unallocated ∧
      l₁.SuppliesExactly ⟨⟨11⟩, ⟨9⟩⟩ ⟨8⟩ ∧ l₁.IsExhausted ⟨⟨11⟩, ⟨9⟩⟩ ⟨8⟩ ∧
      l₁.MatchesExactly ⟨9⟩ [⟨3⟩, ⟨9⟩, ⟨11⟩] ∧
      l₁.allocateLots ⟨9⟩ [⟨3⟩, ⟨9⟩, ⟨11⟩] = .ok (.ok ⟨[], [], a.unallocated⟩, l₁) := by
  have hcheck : (((Ledger.new .standard).performAll soldShort).toOption.any fun l =>
      (l.allocateLots ⟨9⟩ [⟨3⟩, ⟨9⟩, ⟨11⟩]).toOption.any fun r => r.1.toOption.any fun a =>
        l.isBookedIn ⟨8⟩ ⟨9⟩ = true ∧ l.isInternal ⟨9⟩ = false ∧
        l.MatchesExactly ⟨9⟩ [⟨3⟩, ⟨9⟩, ⟨11⟩] ∧
        (l.lotOrEmpty ⟨⟨11⟩, ⟨9⟩⟩).adjustedShares < (r.2.lotOrEmpty ⟨⟨11⟩, ⟨9⟩⟩).adjustedShares ∧
        r.2.SuppliesExactly ⟨⟨3⟩, ⟨9⟩⟩ ⟨8⟩ ∧ 0 < a.unallocated ∧
        r.2.SuppliesExactly ⟨⟨11⟩, ⟨9⟩⟩ ⟨8⟩ ∧ r.2.MatchesExactly ⟨9⟩ [⟨3⟩, ⟨9⟩, ⟨11⟩]) = true := by
    decide +kernel
  obtain ⟨l, hl, hcheck⟩ := exists_ok_of_any hcheck
  obtain ⟨⟨outcome, l₁⟩, hmatch, hcheck⟩ := exists_ok_of_any hcheck
  obtain ⟨a, rfl, hcheck⟩ := exists_ok_of_any hcheck
  obtain ⟨hbooked, hinternal, hexact, hgrew, hfirst, hleft, hlast, hexact₁⟩ := of_decide_eq_true hcheck
  have hreachable := (Reachable.new .standard).performAll hl
  obtain ⟨hbefore, hall, hagain⟩ :=
    allocateLots_in_order hreachable hbooked hinternal hexact hmatch
  exact ⟨l, l₁, a, hreachable, hbooked, hinternal, hexact, hmatch, hgrew, hfirst,
    hbefore [⟨3⟩, ⟨9⟩] ⟨11⟩ [] rfl (by decide) hgrew ⟨3⟩ (by decide) (by decide) hfirst, hleft, hlast,
    hall hleft ⟨11⟩ (by decide) (by decide) hlast, hexact₁, hagain hexact₁⟩

end Lotbook.Ledger
