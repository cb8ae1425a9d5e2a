/-
# Lotbook.Proofs.LotScales -- the places that the shares of lots come in

What shares back after splits is rounded down to sixteen places, and what it takes to back shares is
rounded up to the places of the security. Without splits in between neither is rounded. So a lot across
splits may leave a demand of sixteen places behind, and the next lot, if there are none in between, takes
just so many places of its purchase. The shares of lots that come of matching have at most sixteen
places, and they have more than their security in this way only. If every split gives a whole number of
shares for each, they never have (`Ledger.shares_on_scale`).
-/
import Lotbook.Proofs.Holdings
import Lotbook.Proofs.Overselling

namespace Lotbook

open Decimal

/-! ## Splits that keep the places -/

namespace SplitRatio

/-- Whether a ratio gives a whole number of shares for each. -/
def IsMultiple (r : SplitRatio) : Prop := r.sharesOut.IsWhole ∧ r.sharesIn = 1

instance (r : SplitRatio) : Decidable r.IsMultiple :=
  inferInstanceAs (Decidable (r.sharesOut.IsWhole ∧ r.sharesIn = 1))

theorem isMultiple_identity : identity.IsMultiple := ⟨⟨1, by decide, rfl⟩, rfl⟩

theorem IsMultiple.compound {r s t : SplitRatio} (hr : r.IsMultiple) (hs : s.IsMultiple)
    (h : r.compound s = .ok t) : t.IsMultiple := by
  simp only [SplitRatio.compound, bind_eq_ok_iff, pure_eq_ok_iff] at h
  obtain ⟨sharesOut, hout, sharesIn, hin, rfl⟩ := h
  refine ⟨hr.1.mul hs.1 hout, ?_⟩
  have hone : (1 : Decimal).mul 1 = .ok 1 := by decide +kernel
  rw [hr.2, hs.2, hone] at hin
  exact (Except.ok.inj hin).symm

/-- Such a ratio leaves shares on their grid. -/
theorem IsMultiple.onGrid_apply {r : SplitRatio} {shares x : Decimal} {places : Nat}
    (hr : r.IsMultiple) (hshares : shares.OnGrid places) (h : r.apply shares = .ok x) :
    x.OnGrid places := by
  obtain ⟨⟨n, -, hout⟩, hin⟩ := hr
  simp only [SplitRatio.apply, bind_eq_ok_iff] at h
  obtain ⟨product, hmul, hdiv⟩ := h
  rw [hin] at hdiv
  exact (hshares.mul_whole hout hmul).div_one hdiv

end SplitRatio

namespace Ledger

variable {l l₁ : Ledger} {edit : Edit} {places : Nat}

/-- Whether all splits give a whole number of shares for each. -/
def MultipleSplits (l : Ledger) : Prop :=
  ∀ s ∈ l.securities.items, ∀ split ∈ s.history.splits.items, split.ratio.IsMultiple

/-! ## Shares on a grid -/

/-- All shares have at most so many places, and so has all that they back. -/
structure OnScale (places : Nat) (l : Ledger) : Prop where
  scaled : l.Scaled
  places_le : l.settings.sharePlaces ≤ places
  backs : SplitHistory.adjustedPlaces ≤ places ∨ l.MultipleSplits
  lots : ∀ lot ∈ l.lots.items, lot.purchaseShares.OnGrid places ∧ lot.adjustedShares.OnGrid places

/-- What it takes to back shares is not rounded, or it is rounded to the places of shares. -/
theorem Scaled.onGrid_covering (h : l.Scaled) (hplaces : l.settings.sharePlaces ≤ places)
    {c : SplitContext} {shares needed : Decimal} (hshares : shares.OnGrid places)
    (hcovering : l.covering c shares = .ok needed) : needed.OnGrid places := by
  obtain ⟨r, -, ⟨-, rfl⟩ | ⟨-, x, -, rfl⟩⟩ := covering_eq_ok hcovering
  · exact hshares
  · rw [h.placesOver_eq]
    exact (onGrid_roundTo .up _ x).mono places hplaces

namespace OnScale

variable (h : l.OnScale places)
include h

theorem quantity {id : EntryId} {e : Entry} (he : l.entry? id = some e) :
    e.quantityOrZero.OnGrid places := (h.scaled.entry id e he).mono places h.places_le

/-- What shares back is rounded to so many places, or the splits keep theirs. -/
theorem coveredBy {c : SplitContext} {shares backed : Decimal} (hshares : shares.OnGrid places)
    (hbacked : l.coveredBy c shares = .ok backed) : backed.OnGrid places := by
  obtain ⟨r, hr, ⟨-, rfl⟩ | ⟨-, x, hx, rfl⟩⟩ := coveredBy_eq_ok hbacked
  · exact hshares
  · rcases h.backs with hle | hsplits
    · exact (onGrid_roundTo .down _ x).mono places hle
    · have hmultiple : r.IsMultiple :=
        splitRatio_keeps SplitRatio.isMultiple_identity (fun _ _ _ => .compound) hsplits hr
      exact (hmultiple.onGrid_apply hshares hx).roundTo .down _

theorem remainingShares {id : EntryId} {remaining : Decimal}
    (hremaining : l.remainingShares id = .ok remaining) : remaining.OnGrid places := by
  rw [Ledger.remainingShares] at hremaining
  split at hremaining
  · obtain rfl := Except.ok.inj hremaining
    exact onGrid_zero places
  · rename_i e he
    obtain ⟨consumed, hconsumed, hsub⟩ := bind_eq_ok_iff.mp hremaining
    refine (h.quantity he).sub (onGrid_sum (fun t ht => ?_) hconsumed) hsub
    obtain ⟨lot, hlot, rfl⟩ := List.mem_map.mp ht
    exact (h.lots lot (List.mem_of_mem_filter hlot)).1

theorem movedShares {account : AccountId} {shares moved : Decimal} {lot : Lot}
    (hlot : lot ∈ l.lots.items) (hshares : shares.OnGrid places)
    (hmoved : l.movedShares account shares lot = .ok moved) : moved.OnGrid places := by
  have hpurchase := (h.lots lot hlot).1
  rw [movedShares_eq, bind_eq_ok_iff] at hmoved
  obtain ⟨arrived, harrived, hleft⟩ := hmoved
  have hgrid : arrived.OnGrid places := by
    split at harrived
    · exact hshares.add hpurchase harrived
    · obtain rfl := pure_eq_ok_iff.mp harrived
      exact hshares
  split at hleft
  · exact hgrid.sub hpurchase hleft
  · obtain rfl := pure_eq_ok_iff.mp hleft
    exact hgrid

theorem remainingForAccount {purchase : EntryId} {account : AccountId} {remaining : Decimal}
    (hremaining : l.remainingForAccount purchase account = .ok remaining) :
    remaining.OnGrid places := by
  rw [Ledger.remainingForAccount] at hremaining
  split at hremaining
  · obtain rfl := Except.ok.inj hremaining
    exact onGrid_zero places
  · split at hremaining
    · exact h.remainingShares hremaining
    · exact foldlM_keeps (fun _ lot _ hlot hshares hstep =>
        h.movedShares (List.mem_of_mem_filter hlot) hshares hstep) (onGrid_zero places) hremaining

/-! ## Matching -/

theorem put {lot : Lot}
    (hlot : lot.purchaseShares.OnGrid places ∧ lot.adjustedShares.OnGrid places) :
    OnScale places { l with lots := l.lots.put lot } where
  scaled := ⟨h.scaled.security, h.scaled.entry⟩
  places_le := h.places_le
  backs := h.backs
  lots x hx := by
    rcases Register.eq_or_mem_of_mem_put hx with rfl | hx
    · exact hlot
    · exact h.lots x hx

theorem erase (key : LotKey) : OnScale places { l with lots := l.lots.erase key } where
  scaled := ⟨h.scaled.security, h.scaled.entry⟩
  places_le := h.places_le
  backs := h.backs
  lots x hx := h.lots x (Register.mem_of_mem_erase hx)

/-- A lot that grows takes as much of the demand as there is or as much as there is room for. -/
theorem growth {key : LotKey} {demand : Decimal} (g : Growth l key demand)
    (hdemand : demand.OnGrid places) : g.after.OnScale places ∧ g.taken.OnGrid places := by
  obtain ⟨hpurchase, hadjusted⟩ := h.lots g.lot (Register.get?_eq_some_iff.mp g.lot?_eq).1
  have htotal : g.total.OnGrid places := hpurchase.add (h.remainingForAccount g.remaining_eq) g.total_eq
  have hroom : g.room.OnGrid places := (h.coveredBy htotal g.backed_eq).sub hadjusted g.room_eq
  have htaken : g.taken.OnGrid places := hdemand.min hroom
  have hgrown : g.adjustedShares.OnGrid places := hadjusted.add htaken g.adjustedShares_eq
  exact ⟨h.put ⟨h.scaled.onGrid_covering h.places_le hgrown g.purchaseShares_eq, hgrown⟩, htaken⟩

theorem allocateShares {key : LotKey} {demand rest : Decimal} (hdemand : demand.OnGrid places)
    (hgrow : l.allocateShares key demand = .ok (rest, l₁)) :
    l₁.OnScale places ∧ rest.OnGrid places := by
  rcases allocateShares_eq_ok hgrow with ⟨-, rfl, rfl⟩ | ⟨g, -, hrest, rfl⟩
  · exact ⟨h, hdemand.max (onGrid_zero places)⟩
  · obtain ⟨hafter, htaken⟩ := h.growth g hdemand
    exact ⟨hafter, hdemand.sub htaken hrest⟩

theorem allocateLots {sale : EntryId} {candidates : List EntryId}
    {outcome : Except LedgerError Allocation}
    (hmatch : l.allocateLots sale candidates = .ok (outcome, l₁)) : l₁.OnScale places := by
  rcases allocateLots_cases hmatch with
    ⟨-, -, rfl⟩ | ⟨e, covered, uncovered, he, hcovered, hsub, hcover⟩
  · exact h
  · have hgrid : covered.OnGrid places := by
      refine onGrid_sum (fun t ht => ?_) hcovered
      obtain ⟨lot, hlot, rfl⟩ := List.mem_map.mp ht
      exact (h.lots lot (List.mem_of_mem_filter hlot)).2
    have hdemand : (uncovered.max 0).OnGrid places :=
      ((h.quantity he).neg.sub hgrid hsub).max (onGrid_zero places)
    obtain ⟨rest, hrest⟩ := coverDemand_keeps
      (P := fun demand l => l.OnScale places ∧ demand.OnGrid places)
      (fun _ _ _ _ h hinsert => by
        obtain ⟨-, -, -, rfl⟩ := insertLot_eq_ok hinsert
        exact ⟨h.1.put ⟨onGrid_zero places, onGrid_zero places⟩, h.2⟩)
      (fun _ _ _ _ _ _ h hgrow => h.1.allocateShares h.2 hgrow)
      (fun _ _ _ _ h _ => ⟨h.1.erase _, h.2⟩) ⟨h, hdemand⟩ hcover
    exact hrest.1

end OnScale

/-! ## Operations -/

/-- Unless lots are made or given shares, they keep their shares as of the sale date. -/
theorem Operation.exists_lot (hop : Operation l edit l₁) (hmakes : edit.makesLots = false)
    {key : LotKey} {lot₁ : Lot} (hlot₁ : l₁.lot? key = some lot₁) :
    ∃ lot, l.lot? key = some lot ∧ lot₁.adjustedShares = lot.adjustedShares := by
  by_cases hedit : edit.rederives = true ∨ .lots ∉ edit.touches
  · have hadjusted := hop.adjustedShares_eq hedit key
    rw [hlot₁] at hadjusted
    obtain ⟨lot, hlot, hsame⟩ := Option.map_eq_some_iff.mp hadjusted.symm
    exact ⟨lot, hlot, hsame.symm⟩
  · rcases hop.lot? hlot₁ with ⟨lot, hlot, rfl | ⟨htrue, -⟩ | hrederives, -⟩ | ⟨rfl, -, -⟩
    · exact ⟨lot₁, hlot, rfl⟩
    · simp [hmakes] at htrue
    · exact absurd (.inl hrederives) hedit
    · cases hmakes

/-- Whether an edit records no split but one that gives a whole number of shares for each. -/
def Edit.multiplies : Edit → Bool
  | .addSplit _ split => decide split.ratio.IsMultiple
  | _ => true

theorem Operation.multipleSplits (hop : Operation l edit l₁) (hmultiplies : edit.multiplies = true)
    (h : l.MultipleSplits) : l₁.MultipleSplits := by
  -- a security that is put in has splits that were there before, or the one that is recorded
  have put {x : Security} (hx : ∀ split ∈ x.history.splits.items, split.ratio.IsMultiple) :
      MultipleSplits { l with securities := l.securities.put x } := by
    intro s hs
    rcases Register.eq_or_mem_of_mem_put hs with rfl | hs
    · exact hx
    · exact h s hs
  have there {id : SecurityId} {s : Security} (hs : l.security? id = some s) :=
    h s (Register.get?_eq_some_iff.mp hs).1
  by_cases htouched : .securities ∈ edit.touches
  · cases hop with
    | addSecurity name => exact put fun split hsplit => (List.not_mem_nil hsplit).elim
    | addSplit hadd =>
      obtain ⟨s, _, hs, -, rfl, hrederived⟩ := addSplit_eq_ok hadd
      rw [hrederived.same]
      refine put fun split hsplit => ?_
      rcases Register.eq_or_mem_of_mem_put hsplit with rfl | hsplit
      · exact of_decide_eq_true hmultiplies
      · exact there hs split hsplit
    | removeSplit hremove =>
      obtain ⟨s, hs, -, ⟨-, rfl⟩ | ⟨-, _, rfl, hrederived⟩⟩ := removeSplit_eq_ok hremove
      · exact h
      · rw [hrederived.same]
        exact put fun split hsplit => there hs split (Register.mem_of_mem_erase hsplit)
    | _ => simp [Edit.touches] at htouched
  · unfold MultipleSplits
    rw [hop.untouched.securities htouched]
    exact h

theorem Operation.onScale (hs : l.Sound) (hfollow : l.LotsFollow) (hop : Operation l edit l₁)
    (hmakes : edit.makesLots = false)
    (hmultiplies : SplitHistory.adjustedPlaces ≤ places ∨ edit.multiplies = true)
    (h : l.OnScale places) : l₁.OnScale places := by
  have hscaled := hop.changed.scaled hs h.scaled
  have hplaces : l₁.settings.sharePlaces ≤ places := by
    rw [hop.untouched.settings]
    exact h.places_le
  refine ⟨hscaled, hplaces, ?_, fun lot₁ hlot₁ => ?_⟩
  · rcases h.backs with hle | hsplits
    · exact .inl hle
    · exact hmultiplies.imp_right fun hmultiplies => hop.multipleSplits hmultiplies hsplits
  · have hget := Register.mem_items_iff.mp hlot₁
    obtain ⟨lot, hlot, hsame⟩ := hop.exists_lot hmakes hget
    have hadjusted : lot₁.adjustedShares.OnGrid places := by
      rw [hsame]
      exact (h.lots lot (Register.get?_eq_some_iff.mp hlot).1).2
    refine ⟨?_, hadjusted⟩
    rcases (hop.lotsFollow hs hfollow).follows hget with hfollows | hempty
    · exact hscaled.onGrid_covering hplaces hadjusted hfollows
    · rw [hempty]
      exact onGrid_zero places

/-! ## Whole runs -/

theorem LotsFollow.allocateLots (hs : l.Sound) (h : l.LotsFollow) {sale : EntryId}
    {candidates : List EntryId} {outcome : Except LedgerError Allocation}
    (hmatch : l.allocateLots sale candidates = .ok (outcome, l₁)) : l₁.LotsFollow := by
  have hops : Operations (fun _ _ => True) l l₁ :=
    allocateLots_operations (fun _ _ _ => trivial) hmatch
  exact (hops.keeps (fun _ _ _ hs hfollow _ hop => hop.lotsFollow hs hfollow) ⟨hs, h⟩).2

theorem onScale_new {settings : Settings} (h : settings.sharePlaces ≤ places) :
    (Ledger.new settings).OnScale places where
  scaled := scaled_new settings
  places_le := h
  backs := .inr fun _ hs => (List.not_mem_nil hs).elim
  lots _ hlot := (List.not_mem_nil hlot).elim

/-- The shares of lots that come of matching have at most sixteen places, and no more than all shares if
every split that was ever recorded gives a whole number of shares for each. -/
theorem ReachableBy.onScale
    (h : l.ReachableBy fun _ edit => edit.makesLots = false ∧
      (SplitHistory.adjustedPlaces ≤ places ∨ edit.multiplies = true))
    (hplaces : l.settings.sharePlaces ≤ places) : l.OnScale places := by
  suffices hboth : l.LotsFollow ∧ (l.settings.sharePlaces ≤ places → l.OnScale places) from
    hboth.2 hplaces
  refine h.keeps_matching (P := fun l => l.LotsFollow ∧
    (l.settings.sharePlaces ≤ places → l.OnScale places)) ?_ (fun _ _ h => h.1) ?_ ?_ ?_
  · exact fun settings => ⟨lotsFollow_new settings, onScale_new⟩
  · intro _ edit hremoves
    cases edit <;> first | exact ⟨rfl, .inr rfl⟩ | cases hremoves
  · intro l edit l₁ hs h hedit hop
    refine ⟨hop.lotsFollow hs h.1, fun hplaces => ?_⟩
    rw [hop.untouched.settings] at hplaces
    exact hop.onScale hs h.1 hedit.1 hedit.2 (h.2 hplaces)
  · intro l l₁ sale candidates outcome hs h hmatch
    refine ⟨h.1.allocateLots hs hmatch, fun hplaces => ?_⟩
    rw [(allocateLots_matched hmatch).same] at hplaces
    exact (h.2 hplaces).allocateLots hmatch

/-- The shares of a lot as of the purchase date are off the scale if and only if those as of the sale date
are, and no splits in between change them. -/
theorem LotsFollow.offScale_iff (h : l.LotsFollow) (hscaled : l.Scaled) {lot : Lot}
    (hlot : lot ∈ l.lots.items) : ¬ lot.purchaseShares.OnGrid l.settings.sharePlaces ↔
      l.Straight lot.key ∧ ¬ lot.adjustedShares.OnGrid l.settings.sharePlaces := by
  rcases h.follows (Register.mem_items_iff.mp hlot) with hfollows | hempty
  · obtain ⟨r, hr, ⟨hidentity, hsame⟩ | ⟨hsplit, x, -, hrounded⟩⟩ := covering_eq_ok hfollows
    · have hstraight : l.Straight lot.key := by
        intro r' hr'
        obtain rfl := Except.ok.inj (hr.symm.trans hr')
        exact hidentity
      rw [hsame, and_iff_right hstraight]
    · have hgrid : lot.purchaseShares.OnGrid l.settings.sharePlaces := by
        rw [hrounded, hscaled.placesOver_eq]
        exact onGrid_roundTo .up _ x
      refine iff_of_false (not_not_intro hgrid) fun hoff => ?_
      rw [hoff.1 r hr] at hsplit
      cases hsplit
  · rw [hempty]
    exact iff_of_false (not_not_intro (onGrid_zero _)) fun hoff => hoff.2 (onGrid_zero _)

/-- Shares in lots that come of matching. An entry has no more places than its security. A lot has at most
sixteen places of its purchase, and more than the security if and only if it has more as of the sale date
and no splits in between change them. Without splits that give anything but whole numbers of shares for
each, no lot has more. -/
theorem shares_on_scale (h : l.ReachedByMatching)
    (hplaces : l.settings.sharePlaces ≤ Settings.maxSharePlaces) :
    (∀ e ∈ l.entries.items, ∀ t, l.owner? e.id = some t →
      e.quantityOrZero.OnGrid (l.sharePlaces t.id)) ∧
    (∀ lot ∈ l.lots.items, ∀ t, l.owner? lot.purchase = some t →
      lot.purchaseShares.OnGrid SplitHistory.adjustedPlaces ∧
      (¬ lot.purchaseShares.OnGrid (l.sharePlaces t.id) ↔
        l.Straight lot.key ∧ ¬ lot.adjustedShares.OnGrid (l.sharePlaces t.id))) ∧
    ((l.ReachableBy fun _ edit => edit.makesLots = false ∧ edit.multiplies = true) →
      ∀ lot ∈ l.lots.items, ∀ t, l.owner? lot.purchase = some t →
        lot.purchaseShares.OnGrid (l.sharePlaces t.id)) := by
  have hscaled := h.reachable.scaled
  have hsixteen : l.OnScale SplitHistory.adjustedPlaces := by
    refine ReachableBy.onScale (h.mono fun _ edit hmakes => ⟨hmakes, .inl le_rfl⟩) ?_
    exact hplaces.trans (by decide)
  simp only [hscaled.sharePlaces_eq]
  refine ⟨fun e he t _ => ?_, fun lot hlot t _ => ⟨(hsixteen.lots lot hlot).1, ?_⟩,
    fun hmultiples lot hlot t _ => ?_⟩
  · exact hscaled.entry e.id e (Register.mem_items_iff.mp he)
  · exact h.reachable.lotsFollow.offScale_iff hscaled hlot
  · have honScale : l.OnScale l.settings.sharePlaces :=
      ReachableBy.onScale (hmultiples.mono fun _ edit hedit => ⟨hedit.1, .inr hedit.2⟩) le_rfl
    exact (honScale.lots lot hlot).1

/-- A sale that is covered by one purchase across a split of two for three, and by one after it. -/
def matchedAcrossUneven : List Edit := splitTwice ++ [.allocateLots ⟨7⟩ [⟨3⟩, ⟨5⟩]]

/-- A sale that is covered by a purchase before a split of three for one. -/
def matchedAcrossMultiple : List Edit :=
  [.addSecurity "S", .addSplit ⟨1⟩ ⟨.june 20, ⟨.whole 3, 1⟩⟩,
    .addTransaction ⟨7⟩ (.june 19) (some ⟨1⟩), .addEntry ⟨2⟩ none (some (.whole 10)) none,
    .addTransaction ⟨7⟩ (.june 22) (some ⟨1⟩), .addEntry ⟨4⟩ none (some (-.whole 4)) none,
    .allocateByStrategy ⟨5⟩ .firstIn]

theorem shares_on_scale_acrossSplits : ∃ (l l' : Ledger) (lot lot' : Lot) (t t' : Transaction),
    l.ReachedByMatching ∧ l.lot? ⟨⟨5⟩, ⟨7⟩⟩ = some lot ∧ l.owner? lot.purchase = some t ∧
      lot.purchaseShares.OnGrid SplitHistory.adjustedPlaces ∧ l.Straight lot.key ∧
      l'.ReachedByMatching ∧ l'.lot? ⟨⟨3⟩, ⟨5⟩⟩ = some lot' ∧ l'.owner? lot'.purchase = some t' ∧
      ¬ l'.Straight lot'.key ∧ lot'.purchaseShares.OnGrid (l'.sharePlaces t'.id) := by
  have hcheck : (((Ledger.new .standard).performAll matchedAcrossUneven).toOption.any fun l =>
      ((Ledger.new .standard).performAll matchedAcrossMultiple).toOption.any fun l' =>
        (l.lot? ⟨⟨5⟩, ⟨7⟩⟩).any fun lot => (l.owner? lot.purchase).any fun t =>
          (l'.lot? ⟨⟨3⟩, ⟨5⟩⟩).any fun lot' => (l'.owner? lot'.purchase).any fun t' =>
            l.settings.sharePlaces ≤ Settings.maxSharePlaces ∧
              l'.settings.sharePlaces ≤ Settings.maxSharePlaces ∧
              ¬ lot.purchaseShares.OnGrid (l.sharePlaces t.id) ∧ ¬ l'.Straight lot'.key) = true := by
    decide +kernel
  obtain ⟨l, hl, hcheck⟩ := exists_ok_of_any hcheck
  obtain ⟨l', hl', hcheck⟩ := exists_ok_of_any hcheck
  obtain ⟨lot, hlot, hcheck⟩ := (Option.any_eq_true _ _).mp hcheck
  obtain ⟨t, ht, hcheck⟩ := (Option.any_eq_true _ _).mp hcheck
  obtain ⟨lot', hlot', hcheck⟩ := (Option.any_eq_true _ _).mp hcheck
  obtain ⟨t', ht', hcheck⟩ := (Option.any_eq_true _ _).mp hcheck
  obtain ⟨hplaces, hplaces', hoff, hsplit⟩ := of_decide_eq_true hcheck
  have hreached : l.ReachedByMatching :=
    (ReachableBy.new .standard).performAll_of_forall (by decide) hl
  have hmultiples : l'.ReachableBy fun _ edit => edit.makesLots = false ∧ edit.multiplies = true :=
    (ReachableBy.new .standard).performAll_of_forall (by decide) hl'
  have hreached' : l'.ReachedByMatching := hmultiples.mono fun _ _ hedit => hedit.1
  obtain ⟨-, hlots, -⟩ := shares_on_scale hreached hplaces
  obtain ⟨-, -, honScale⟩ := shares_on_scale hreached' hplaces'
  obtain ⟨hsixteen, hiff⟩ := hlots lot (Register.get?_eq_some_iff.mp hlot).1 t ht
  exact ⟨l, l', lot, lot', t, t', hreached, hlot, ht, hsixteen, (hiff.mp hoff).1, hreached', hlot', ht',
    hsplit, honScale hmultiples lot' (Register.get?_eq_some_iff.mp hlot').1 t' ht'⟩

/-- A lot may have more places than its security: the one before it leaves a third of a share. -/
theorem exists_offScale : ∃ (l : Ledger) (lot : Lot) (t : Transaction) (s : Security),
    l.ReachedByMatching ∧ l.settings.sharePlaces ≤ Settings.maxSharePlaces ∧ lot ∈ l.lots.items ∧
      l.owner? lot.purchase = some t ∧ t.security = some s.id ∧ l.security? s.id = some s ∧
      lot.purchaseShares = .ofMantissa 3333333333333334 16 (by decide) ∧
      ¬ lot.purchaseShares.OnGrid s.places := by
  have hcheck : (((Ledger.new .standard).performAll matchedAcrossUneven).toOption.any fun l =>
      (l.lot? ⟨⟨5⟩, ⟨7⟩⟩).any fun lot => (l.owner? lot.purchase).any fun t =>
        (l.security? ⟨1⟩).any fun s => l.settings.sharePlaces ≤ Settings.maxSharePlaces ∧
          t.security = some s.id ∧ s.id = ⟨1⟩ ∧
          lot.purchaseShares = .ofMantissa 3333333333333334 16 (by decide) ∧
          ¬ lot.purchaseShares.OnGrid s.places) = true := by
    decide +kernel
  obtain ⟨l, hl, hcheck⟩ := exists_ok_of_any hcheck
  obtain ⟨lot, hlot, hcheck⟩ := (Option.any_eq_true _ _).mp hcheck
  obtain ⟨t, ht, hcheck⟩ := (Option.any_eq_true _ _).mp hcheck
  obtain ⟨s, hs, hcheck⟩ := (Option.any_eq_true _ _).mp hcheck
  obtain ⟨hplaces, hsecurity, hid, hshares, hoff⟩ := of_decide_eq_true hcheck
  have hreached : l.ReachedByMatching :=
    (ReachableBy.new .standard).performAll_of_forall (by decide) hl
  exact ⟨l, lot, t, s, hreached, hplaces, (Register.get?_eq_some_iff.mp hlot).1, ht, hsecurity, hid ▸ hs,
    hshares, hoff⟩

end Ledger

end Lotbook
