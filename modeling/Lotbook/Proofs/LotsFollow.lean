/-
# Lotbook.Proofs.LotsFollow -- lots follow the splits, dates and securities under them

The shares of a lot as of the purchase date are stored, but they are always the fewest that back its
shares as of the sale date, with the splits, dates and securities that there are now
(`Ledger.Follows`), and deriving the lot again would change nothing (`Ledger.Settled`). An operation
that changes none of these leaves what comes of deriving a lot (`Ledger.Operation.lotPurchaseShares_eq`),
and one that does derives every lot again for which it matters (`Ledger.Rederived.settled`). Only for a
lot that was made and never given shares was nothing computed, and nothing may come of computing it: the
splits compounded may be too large for a decimal, or so small that a contract cannot be checked.

No operation on splits, dates or securities changes the shares as of the sale date. So a split that is
taken out again leaves the ledger that there was before it (`Ledger.addSplit_removeSplit`).
-/
import Lotbook.Proofs.Capacity
import Lotbook.Proofs.Frames
import Lotbook.Proofs.Runs

namespace Lotbook.Ledger

variable {l l₁ l₂ : Ledger} {edit : Edit} {key : LotKey} {c : SplitContext}

/-! ## What it takes to back shares -/

/-- The lot has as many shares as of the purchase date as it takes to back those as of the sale date. -/
def Follows (l : Ledger) (lot : Lot) : Prop :=
  l.covering (l.lotContext lot.key) lot.adjustedShares = .ok lot.purchaseShares

theorem follows_iff {lot : Lot} (hkey : lot.key = key) :
    l.Follows lot ↔ l.covering (l.lotContext key) lot.adjustedShares = .ok lot.purchaseShares := by
  rw [Follows, hkey]

/-- The splits in a context come to the same in two ledgers. -/
structure SameSplits (l l₁ : Ledger) (c : SplitContext) : Prop where
  ratio : l₁.splitRatio c = l.splitRatio c
  applied shares : l₁.applySplits c shares = l.applySplits c shares
  reverted shares : l₁.revertSplits c shares = l.revertSplits c shares
  covering shares : l₁.covering c shares = l.covering c shares

/-- What the splits come to depends on the settings and on the security. -/
theorem sameSplits_of_security (hsettings : l₁.settings = l.settings)
    (hsecurity : ∀ id, c.security = some id → l₁.security? id = l.security? id) :
    SameSplits l l₁ c := by
  have hperiod : l₁.periodOf? c = l.periodOf? c := by
    unfold periodOf?
    cases hid : c.security with
    | none => rfl
    | some id =>
      show (l₁.security? id).bind _ = (l.security? id).bind _
      rw [hsecurity id hid, hsettings]
  constructor
  · simp only [splitRatio, hperiod]
  · simp only [applySplits, hperiod, implies_true]
  · simp only [revertSplits, hperiod, implies_true]
  · simp only [Ledger.covering, hperiod, implies_true]

/-- A security that was never split leaves shares as they are, as if it were not there. -/
theorem sameSplits_of_new {id : SecurityId} {s : Security} (hid : c.security = some id)
    (hnone : l.security? id = none) (hs : l₁.security? id = some s) (hnew : s.history = .new id) :
    SameSplits l l₁ c := by
  have hbefore : l.periodOf? c = none := by
    unfold periodOf?
    rw [hid]
    show (l.security? id).bind _ = none
    rw [hnone]
    rfl
  have hafter : ∀ s' period, l₁.periodOf? c = some (s', period) → s' = s := by
    intro s' period hperiod
    simp only [periodOf?, hid, hs, bind, pure, Option.bind_some, Option.bind_eq_some_iff] at hperiod
    obtain ⟨start, -, heq⟩ := hperiod
    exact (Prod.mk.inj (Option.some.inj heq)).1.symm
  cases hperiod : l₁.periodOf? c with
  | none =>
    constructor <;> simp only [splitRatio, applySplits, revertSplits, Ledger.covering, hperiod,
      hbefore, implies_true]
  | some held =>
    obtain ⟨s', period⟩ := held
    obtain rfl := hafter s' period hperiod
    constructor
    · simp only [splitRatio, hperiod, hbefore, hnew]
      rfl
    · intro shares
      simp only [applySplits, hperiod, hbefore, hnew]
      rfl
    · intro shares
      simp only [revertSplits, hperiod, hbefore, hnew]
      rfl
    · intro shares
      simp only [Ledger.covering, hperiod, hbefore, hnew]
      rfl

/-- A lot is derived alike in two ledgers that have the same splits in its context. -/
theorem lotPurchaseShares_congr (hcontext : l₁.lotContext key = l.lotContext key)
    (h : SameSplits l l₁ (l.lotContext key)) (shares : Decimal) :
    l₁.lotPurchaseShares key shares = l.lotPurchaseShares key shares := by
  simp only [lotPurchaseShares, hcontext, h.ratio, h.applied, h.reverted, h.covering]

/-- No shares are backed by no shares, unless the splits cannot be compounded. -/
theorem covering_zero {p : Decimal} (h : l.covering c 0 = .ok p) : p = 0 := by
  obtain ⟨r, -, ⟨-, rfl⟩ | ⟨-, x, hx, rfl⟩⟩ := covering_eq_ok h
  · rfl
  · rw [SplitRatio.revert, Decimal.zero_mul] at hx
    change (0 : Decimal).div r.sharesOut = .ok x at hx
    by_cases hout : r.sharesOut = 0
    · rw [Decimal.div, if_pos hout] at hx
      cases hx
    · rw [Decimal.zero_div hout] at hx
      obtain rfl := Except.ok.inj hx
      exact Decimal.roundTo_zero ..

/-! ## Operations that leave it alone -/

/-- Whether an edit derives lots again, since it changes a split, a date or which security a transaction
has. -/
def Edit.rederives : Edit → Bool
  | .addSplit .. | .removeSplit .. | .setDate .. | .setSecurity .. => true
  | _ => false

theorem Edit.setsDate_of_not_rederives (h : edit.rederives = false) : edit.setsDate = false := by
  cases edit <;> first | rfl | cases h

theorem Edit.setsSecurity_of_not_rederives (h : edit.rederives = false) :
    edit.setsSecurity = false := by
  cases edit <;> first | rfl | cases h

/-- Splits stay as they are; a security that is new has none. -/
theorem Operation.sameSplits (hs : l.Sound) (hop : Operation l edit l₁)
    (hrederives : edit.rederives = false) (c : SplitContext) : SameSplits l l₁ c := by
  by_cases htouched : .securities ∈ edit.touches
  case neg =>
    refine sameSplits_of_security hop.untouched.settings fun id _ => ?_
    exact congrArg (Register.get? · id) (hop.untouched.securities htouched)
  cases hop with
  | addSecurity name =>
    -- a context may have named the new security before it was there
    by_cases hid : c.security = some ⟨l.issued + 1⟩
    · have hnone : l.security? ⟨l.issued + 1⟩ = none := hs.given.security?_eq_none (Int.lt_succ _)
      exact sameSplits_of_new hid hnone ((l.security?_addSecurity name _).trans (if_pos rfl)) rfl
    · refine sameSplits_of_security (by rfl) fun id hsome => ?_
      rw [security?_addSecurity, if_neg]
      rintro rfl
      exact hid hsome
  | addSplit | removeSplit => cases hrederives
  | _ => simp [Edit.touches] at htouched

/-- A lot has the same context if its entries have owners with the same dates and securities. -/
theorem lotContext_congr
    (hdate : ∀ id, key.purchase = id ∨ key.sale = id →
      (l₁.owner? id).map Transaction.date = (l.owner? id).map Transaction.date)
    (hsecurity : ∀ id, key.purchase = id ∨ key.sale = id →
      (l₁.owner? id).bind Transaction.security = (l.owner? id).bind Transaction.security) :
    l₁.lotContext key = l.lotContext key := by
  simp only [lotContext, hdate key.purchase (.inl rfl), hdate key.sale (.inr rfl),
    hsecurity key.purchase (.inl rfl), hsecurity key.sale (.inr rfl)]

/-- The context of a lot stays as it is while its entries are there. -/
theorem Operation.lotContext_eq (hs : l.Sound) (hop : Operation l edit l₁)
    (hrederives : edit.rederives = false)
    (hentries : ∀ id, key.purchase = id ∨ key.sale = id →
      (∃ e, l.entry? id = some e) ∧ ∃ e, l₁.entry? id = some e) :
    l₁.lotContext key = l.lotContext key := by
  have howner : ∀ id, key.purchase = id ∨ key.sale = id →
      ∃ t t₁, l.owner? id = some t ∧ l₁.owner? id = some t₁ ∧ edit.KeepsTransaction t t₁ := by
    intro id hid
    obtain ⟨⟨e, he⟩, e₁, he₁⟩ := hentries id hid
    exact hop.owner? hs he he₁
  apply lotContext_congr
  · intro id hid
    obtain ⟨t, t₁, ht, ht₁, hkeeps⟩ := howner id hid
    rw [ht, ht₁]
    exact congrArg some (hkeeps.date (Edit.setsDate_of_not_rederives hrederives))
  · intro id hid
    obtain ⟨t, t₁, ht, ht₁, hkeeps⟩ := howner id hid
    rw [ht, ht₁]
    exact hkeeps.security (Edit.setsSecurity_of_not_rederives hrederives)

/-- An operation that derives no lots again leaves what comes of deriving a lot. -/
theorem Operation.lotPurchaseShares_eq (hs : l.Sound) (hop : Operation l edit l₁)
    (hrederives : edit.rederives = false)
    (hentries : ∀ id, key.purchase = id ∨ key.sale = id →
      (∃ e, l.entry? id = some e) ∧ ∃ e, l₁.entry? id = some e) (shares : Decimal) :
    l₁.lotPurchaseShares key shares = l.lotPurchaseShares key shares :=
  lotPurchaseShares_congr (hop.lotContext_eq hs hrederives hentries)
    (hop.sameSplits hs hrederives _) shares

/-! ## Operations that derive lots again -/

/-- Other splits of a security are splits of lots of that security only. -/
theorem lotPurchaseShares_withHistory {s : Security} {history : SplitHistory}
    (hkey : (l.withHistory s history).splitBy s.id key = false) (shares : Decimal) :
    (l.withHistory s history).lotPurchaseShares key shares = l.lotPurchaseShares key shares := by
  have hother : (l.lotContext key).security ≠ some s.id := of_decide_eq_false hkey
  refine lotPurchaseShares_congr (by rfl) (sameSplits_of_security (by rfl) fun id hid => ?_) shares
  show (l.securities.put { s with history }).get? id = _
  rw [Register.get?_put_of_ne]
  · rfl
  · rintro rfl
    exact hother hid

/-- The owner of an entry is the same if it is none of the transactions that were changed. -/
theorem Spread.owner?_eq {α : Type} {field : TransactionField α} {value : α} {changes : Changes α}
    (h : Spread field value l l₁ changes) {id : EntryId}
    (hid : l₁.ownedAmong (changes.map Prod.fst) id = false) : l₁.owner? id = l.owner? id := by
  have hentry : l₁.entry? id = l.entry? id := by rw [h.same]; rfl
  unfold ownedAmong at hid
  unfold owner?
  rw [hentry] at hid ⊢
  cases he : l.entry? id with
  | none => rfl
  | some e =>
    cases howner : e.transaction with
    | none => simp [howner]
    | some owner =>
      simp only [he, Option.bind_some, howner, List.contains_eq_mem, decide_eq_false_iff_not] at hid
      simp only [bind, Option.bind_some, howner]
      rw [h.transaction?_eq, if_neg hid]

theorem Spread.lotPurchaseShares_eq {α : Type} {field : TransactionField α} {value : α}
    {changes : Changes α} (h : Spread field value l l₁ changes) (hkey : l₁.movedBy changes key = false)
    (shares : Decimal) : l₁.lotPurchaseShares key shares = l.lotPurchaseShares key shares := by
  obtain ⟨hpurchase, hsale⟩ := Bool.or_eq_false_iff.mp hkey
  have howner : ∀ id, key.purchase = id ∨ key.sale = id → l₁.owner? id = l.owner? id := by
    rintro id (rfl | rfl)
    · exact h.owner?_eq hpurchase
    · exact h.owner?_eq hsale
  have hcontext : l₁.lotContext key = l.lotContext key :=
    lotContext_congr (fun id hid => by rw [howner id hid]) fun id hid => by rw [howner id hid]
  refine lotPurchaseShares_congr hcontext (sameSplits_of_security (by rw [h.same]) fun id _ => ?_) shares
  rw [h.same]
  rfl

/-- An operation that derives lots again first changes what lies under them. The lots that it does not
derive are those for which the change does not matter. -/
theorem Operation.rederived (hop : Operation l edit l₁) (hrederives : edit.rederives = true) :
    l₁ = l ∨ ∃ affected l₂, Rederived affected l₂ l₁ ∧ l₂.lots = l.lots ∧
      ∀ key, affected key = false → ∀ shares,
        l₂.lotPurchaseShares key shares = l.lotPurchaseShares key shares := by
  cases hop with
  | addSplit hadd =>
    obtain ⟨s, l₂, hget, -, rfl, hrederived⟩ := addSplit_eq_ok hadd
    obtain rfl := id_of_security hget
    exact .inr ⟨_, _, hrederived, rfl, fun _ => lotPurchaseShares_withHistory⟩
  | removeSplit hremove =>
    obtain ⟨s, hget, -, ⟨-, rfl⟩ | ⟨-, l₂, rfl, hrederived⟩⟩ := removeSplit_eq_ok hremove
    -- there is no split on that day
    · exact .inl rfl
    · obtain rfl := id_of_security hget
      exact .inr ⟨_, _, hrederived, rfl, fun _ => lotPurchaseShares_withHistory⟩
  | setDate hset =>
    obtain ⟨l₂, -, hspread, hrederived⟩ := setDate_eq_ok hset
    exact .inr ⟨_, l₂, hrederived, by rw [hspread.same], fun _ => hspread.lotPurchaseShares_eq⟩
  | setSecurity hset =>
    obtain ⟨l₂, -, hspread, hrederived⟩ := setSecurity_eq_ok hset
    exact .inr ⟨_, l₂, hrederived, by rw [hspread.same], fun _ => hspread.lotPurchaseShares_eq⟩
  | _ => cases hrederives

/-- Deriving lots again keeps their shares as of the sale date. -/
theorem Rederived.adjustedShares_eq {affected : LotKey → Bool} (h : Rederived affected l₂ l₁)
    (hlots : l₂.lots = l.lots) (key : LotKey) :
    (l₁.lot? key).map Lot.adjustedShares = (l.lot? key).map Lot.adjustedShares := by
  obtain ⟨p, hp⟩ := h.lot?_eq key
  have hsame : l₂.lot? key = l.lot? key := congrArg (Register.get? · key) hlots
  rw [hp, hsame, Option.map_map]
  rfl

/-! ## Lots after an operation -/

/-- Deriving the lot again gives it the shares as of the purchase date that it has. -/
def Settled (l : Ledger) (lot : Lot) : Prop :=
  l.lotPurchaseShares lot.key lot.adjustedShares = .ok lot.purchaseShares

theorem settled_iff {lot : Lot} (hkey : lot.key = key) :
    l.Settled lot ↔ l.lotPurchaseShares key lot.adjustedShares = .ok lot.purchaseShares := by
  rw [Settled, hkey]

theorem Settled.follows {lot : Lot} (h : l.Settled lot) : l.Follows lot :=
  covering_of_lotPurchaseShares h

/-- Every lot links entries of the ledger, and deriving it again changes nothing, unless it is as it was
made. -/
structure LotsFollow (l : Ledger) : Prop where
  entries : ∀ key lot, l.lot? key = some lot →
    ∀ id, key.purchase = id ∨ key.sale = id → ∃ e, l.entry? id = some e
  settled : ∀ key lot, l.lot? key = some lot → l.Settled lot ∨ lot = .empty key

theorem lotsFollow_new (settings : Settings) : (Ledger.new settings).LotsFollow where
  entries _ _ h := by cases h
  settled _ _ h := by cases h

/-- Where lots come from: one was there before, and its entries stay, or it was made just now. It was
derived if its shares changed, which is when they are set or derived again. The cases are the operations
that touch the lots; of those that derive them again it is enough to know that they do. -/
theorem Operation.lot? (hop : Operation l edit l₁) {lot₁ : Lot} (hlot₁ : l₁.lot? key = some lot₁) :
    (∃ lot, l.lot? key = some lot ∧
        (lot₁ = lot ∨ (edit.makesLots = true ∧ l.Settled lot₁) ∨ edit.rederives = true) ∧
        ∀ id, key.purchase = id ∨ key.sale = id → edit ≠ .removeEntry id) ∨
      edit = .insertLot key ∧ lot₁ = .empty key ∧
        ∀ id, key.purchase = id ∨ key.sale = id → ∃ e, l.entry? id = some e := by
  have hkey : lot₁.key = key := key_of_lot hlot₁
  have same (h : l.lot? key = some lot₁)
      (hedit : ∀ id, key.purchase = id ∨ key.sale = id → edit ≠ .removeEntry id) :
      ∃ lot, l.lot? key = some lot ∧
        (lot₁ = lot ∨ (edit.makesLots = true ∧ l.Settled lot₁) ∨ edit.rederives = true) ∧
        ∀ id, key.purchase = id ∨ key.sale = id → edit ≠ .removeEntry id :=
    ⟨lot₁, h, .inl rfl, hedit⟩
  cases hrederives : edit.rederives with
  | true =>
    have hedit : ∀ id, key.purchase = id ∨ key.sale = id → edit ≠ .removeEntry id := by
      rintro id - rfl
      cases hrederives
    rcases hop.rederived hrederives with rfl | ⟨affected, l₂, hrederived, hlots, -⟩
    · exact .inl ⟨lot₁, hlot₁, .inl rfl, hedit⟩
    · have hadjusted := hrederived.adjustedShares_eq hlots key
      rw [hlot₁] at hadjusted
      obtain ⟨lot, hlot, -⟩ := Option.map_eq_some_iff.mp hadjusted.symm
      exact .inl ⟨lot, hlot, .inr (.inr rfl), hedit⟩
  | false =>
    rw [hrederives] at same
    by_cases htouched : .lots ∈ edit.touches
    case neg =>
      have hsame := hop.untouched.lots htouched
      refine .inl (same ((congrArg (Register.get? · key) hsame).symm.trans hlot₁) ?_)
      rintro id - rfl
      simp [Edit.touches] at htouched
    -- what is left are the operations on lots, and removing an entry, which takes its lots along
    cases hop with
    | insertLot h =>
      obtain ⟨⟨p, hp⟩, ⟨s, hs⟩, -, rfl⟩ := insertLot_eq_ok h
      rw [lot?_put_empty] at hlot₁
      split at hlot₁
      · rename_i hkey
        obtain rfl := Option.some.inj hlot₁
        subst hkey
        refine .inr ⟨rfl, rfl, ?_⟩
        rintro id (rfl | rfl)
        · exact ⟨p, hp⟩
        · exact ⟨s, hs⟩
      · exact .inl (same hlot₁ fun _ _ h => by cases h)
    | setLotShares h =>
      obtain ⟨lot, p, hlot, hp, rfl⟩ := setLotShares_eq_ok h
      rw [lot?_put_resized, key_of_lot hlot] at hlot₁
      split at hlot₁
      · rename_i hresized
        obtain rfl := Option.some.inj hlot₁
        subst hresized
        exact .inl ⟨lot, hlot, .inr (.inl ⟨rfl, (settled_iff hkey).mpr hp⟩), fun _ _ h => by cases h⟩
      · exact .inl (same hlot₁ fun _ _ h => by cases h)
    | removeLot h =>
      obtain ⟨-, rfl⟩ := removeLot_eq_ok h
      rw [lot?_erase] at hlot₁
      split at hlot₁
      · cases hlot₁
      · exact .inl (same hlot₁ fun _ _ h => by cases h)
    | removeEntry h =>
      obtain ⟨e, -, -, -, -, hlots, -⟩ := removeEntry_eq_ok h
      rw [hlots] at hlot₁
      split at hlot₁
      · cases hlot₁
      · rename_i hkey
        refine .inl (same hlot₁ ?_)
        rintro id hid heq
        obtain rfl := Edit.removeEntry.inj heq
        exact hkey hid
    | dropTransaction => exact .inl (same hlot₁ fun _ _ h => by cases h)
    | addSplit | removeSplit | setDate | setSecurity => cases hrederives
    | _ => simp [Edit.touches] at htouched

/-- An operation leaves the entries of every lot that it leaves. -/
theorem Operation.entries_of_lot (hs : l.Sound) (h : l.LotsFollow) (hop : Operation l edit l₁)
    {lot₁ : Lot} (hlot₁ : l₁.lot? key = some lot₁) {id : EntryId}
    (hid : key.purchase = id ∨ key.sale = id) :
    (∃ e, l.entry? id = some e) ∧ ∃ e₁, l₁.entry? id = some e₁ := by
  obtain ⟨e, he, hstays⟩ : ∃ e, l.entry? id = some e ∧ edit ≠ .removeEntry id := by
    rcases hop.lot? hlot₁ with ⟨lot, hlot, -, hedit⟩ | ⟨rfl, -, hentries⟩
    · obtain ⟨e, he⟩ := h.entries key lot hlot id hid
      exact ⟨e, he, hedit id hid⟩
    · obtain ⟨e, he⟩ := hentries id hid
      exact ⟨e, he, fun heq => by cases heq⟩
  exact ⟨⟨e, he⟩, (hop.exists_entry hs he).resolve_right hstays⟩

/-! ## Lots that are derived again -/

/-- Deriving some lots again settles all, if for the others nothing changed. -/
theorem Rederived.settled {affected : LotKey → Bool} (hrederived : Rederived affected l₂ l₁)
    (h : l.LotsFollow) (hlots : l₂.lots = l.lots)
    (hsame : ∀ key, affected key = false → ∀ shares,
      l₂.lotPurchaseShares key shares = l.lotPurchaseShares key shares)
    {lot₁ : Lot} (hlot₁ : l₁.lot? key = some lot₁) : l₁.Settled lot₁ ∨ lot₁ = .empty key := by
  have hkey : lot₁.key = key := key_of_lot hlot₁
  have hafter : ∀ shares, l₁.lotPurchaseShares key shares = l₂.lotPurchaseShares key shares := by
    intro shares
    rw [hrederived.same]
    rfl
  cases haffected : affected key with
  | true =>
    left
    rw [settled_iff hkey, hafter]
    obtain ⟨p, hp⟩ := hrederived.lot?_eq key
    rw [hlot₁] at hp
    obtain ⟨lot, hlot, -⟩ := Option.map_eq_some_iff.mp hp.symm
    obtain ⟨p, hpurchase, hderived⟩ := hrederived.derived key lot hlot haffected
    obtain rfl := Option.some.inj (hlot₁.symm.trans hderived)
    exact hpurchase
  | false =>
    have hlot : l.lot? key = some lot₁ := by
      have hunaffected := hrederived.unaffected key fun htrue => by simp [haffected] at htrue
      rw [← hlot₁, hunaffected]
      exact (congrArg (Register.get? · key) hlots).symm
    refine (h.settled key lot₁ hlot).imp_left fun hsettled => ?_
    rw [settled_iff hkey] at hsettled ⊢
    rw [hafter, hsame key haffected, hsettled]

/-! ## Every operation lets lots follow -/

theorem Operation.lotsFollow (hs : l.Sound) (h : l.LotsFollow) (hop : Operation l edit l₁) :
    l₁.LotsFollow where
  entries key lot hlot id hid := (hop.entries_of_lot hs h hlot hid).2
  settled key lot₁ hlot₁ := by
    cases hrederives : edit.rederives with
    | false =>
      have hkey : lot₁.key = key := key_of_lot hlot₁
      have hsame := hop.lotPurchaseShares_eq hs hrederives
        fun id hid => hop.entries_of_lot hs h hlot₁ hid
      -- it is settled in the ledger before, and deriving it still gives the same
      have hbefore : l.Settled lot₁ ∨ lot₁ = .empty key := by
        rcases hop.lot? hlot₁ with ⟨lot, hlot, rfl | ⟨-, hsettled⟩ | htrue, -⟩ | ⟨-, hempty, -⟩
        · exact h.settled key lot₁ hlot
        · exact .inl hsettled
        · simp [hrederives] at htrue
        · exact .inr hempty
      refine hbefore.imp_left fun hsettled => ?_
      rw [settled_iff hkey] at hsettled ⊢
      rw [hsame, hsettled]
    | true =>
      rcases hop.rederived hrederives with rfl | ⟨affected, l₂, hrederived, hlots, hsame⟩
      · exact h.settled key lot₁ hlot₁
      · exact hrederived.settled h hlots hsame hlot₁

theorem Reachable.lotsFollow (h : l.Reachable) : l.LotsFollow :=
  h.reachableBy.keeps lotsFollow_new (fun _ _ _ => trivial)
    fun _ _ _ hs hfollow _ hop => hop.lotsFollow hs hfollow

theorem LotsFollow.follows (h : l.LotsFollow) {lot : Lot} (hlot : l.lot? key = some lot) :
    l.Follows lot ∨ lot = .empty key :=
  (h.settled key lot hlot).imp_left Settled.follows

theorem LotsFollow.purchaseShares_eq (h : l.LotsFollow) {lot : Lot} (hlot : l.lot? key = some lot)
    {p : Decimal} (hp : l.covering (l.lotContext key) lot.adjustedShares = .ok p) :
    p = lot.purchaseShares := by
  rcases h.follows hlot with hfollows | rfl
  · rw [follows_iff (key_of_lot hlot), hp] at hfollows
    exact Except.ok.inj hfollows
  · exact covering_zero hp

/-- The lot is as it was made, and nothing comes of computing what backs no shares. -/
def Uncomputable (l : Ledger) (key : LotKey) (fault : ArithmeticFault) : Prop :=
  l.lot? key = some (.empty key) ∧ l.covering (l.lotContext key) 0 = .error fault

theorem LotsFollow.follows_or_uncomputable (h : l.LotsFollow) {lot : Lot}
    (hlot : l.lot? key = some lot) : l.Follows lot ∨ ∃ fault, l.Uncomputable key fault := by
  cases hcovering : l.covering (l.lotContext key) lot.adjustedShares with
  | ok p =>
    left
    rw [follows_iff (key_of_lot hlot), hcovering, h.purchaseShares_eq hlot hcovering]
  | error fault =>
    rcases h.follows hlot with hfollows | rfl
    · exact .inl hfollows
    · exact .inr ⟨fault, hlot, hcovering⟩

/-- The lot is as it was made, and nothing comes of deriving it: what backs no shares cannot be computed,
or no contract can be checked. -/
def Underivable (l : Ledger) (key : LotKey) (fault : ArithmeticFault) : Prop :=
  l.lot? key = some (.empty key) ∧ l.lotPurchaseShares key 0 = .error fault

theorem LotsFollow.underivable (h : l.LotsFollow) {lot : Lot} (hlot : l.lot? key = some lot)
    {fault : ArithmeticFault} (hfault : l.lotPurchaseShares key lot.adjustedShares = .error fault) :
    l.Underivable key fault := by
  rcases h.settled key lot hlot with hsettled | rfl
  · rw [settled_iff (key_of_lot hlot), hfault] at hsettled
    cases hsettled
  · exact ⟨hlot, hfault⟩

/-! ## Shares as of the sale date -/

/-- Shares as of the sale date are not changed by operations on what lies under the lots. -/
theorem Operation.adjustedShares_eq (hop : Operation l edit l₁)
    (hedit : edit.rederives = true ∨ .lots ∉ edit.touches) (key : LotKey) :
    (l₁.lot? key).map Lot.adjustedShares = (l.lot? key).map Lot.adjustedShares := by
  rcases hedit with hrederives | huntouched
  · rcases hop.rederived hrederives with rfl | ⟨affected, l₂, hrederived, hlots, -⟩
    · rfl
    · exact hrederived.adjustedShares_eq hlots key
  · have hsame := hop.untouched.lots huntouched
    exact congrArg (Option.map Lot.adjustedShares <| Register.get? · key) hsame

/-- Such an edit is a single operation, so the same holds whether it is refused or not. -/
theorem adjustedShares_perform (hedit : edit.rederives = true ∨ .lots ∉ edit.touches)
    {refusal : Option Failure} (hperform : l.perform edit = .ok (refusal, l₁)) (key : LotKey) :
    (l₁.lot? key).map Lot.adjustedShares = (l.lot? key).map Lot.adjustedShares := by
  have hsingle : edit.isCompound = false := by
    cases edit <;> first | rfl | simp [Edit.rederives, Edit.touches] at hedit
  rcases perform_single hsingle hperform with ⟨-, hop⟩ | ⟨-, rfl⟩
  · exact hop.adjustedShares_eq hedit key
  · rfl

/-- In a session nothing else happens to the lots: no edit that deletes is among these. -/
theorem adjustedShares_perform_session {s s₁ : Session} {edit : Session.Edit}
    (hedit : (edit.direct s.ledger.settings).rederives = true ∨
      .lots ∉ (edit.direct s.ledger.settings).touches)
    {refusal : Option Failure} (hperform : s.perform edit = .ok (refusal, s₁)) (key : LotKey) :
    (s₁.ledger.lot? key).map Lot.adjustedShares = (s.ledger.lot? key).map Lot.adjustedShares := by
  have hdeletes : edit.deletes = false := by
    cases edit <;> first | rfl | simp [Session.Edit.direct, Edit.rederives, Edit.touches] at hedit
  exact adjustedShares_perform hedit (Session.perform_direct_of_ok hdeletes hperform) key

/-! ## Splits that are taken out again -/

/-- Deriving lots again fails at a lot that cannot be derived. -/
theorem rederiveLots_eq_error {affected : LotKey → Bool} {fault : ArithmeticFault}
    (h : l.rederiveLots affected = .error fault) :
    ∃ key lot, l.lot? key = some lot ∧ affected key = true ∧
      l.lotPurchaseShares key lot.adjustedShares = .error fault := by
  obtain ⟨acc, lot, hmem, hstep⟩ := exists_of_foldlM_error h
  obtain ⟨hlot, haffected⟩ := List.mem_filter.mp hmem
  refine ⟨lot.key, lot, Register.mem_items_iff.mp hlot, haffected, ?_⟩
  cases hpurchase : l.lotPurchaseShares lot.key lot.adjustedShares with
  | error fault' =>
    simp only [resized, hpurchase] at hstep
    exact congrArg _ (Except.error.inj hstep)
  | ok p =>
    simp only [resized, hpurchase] at hstep
    cases hstep

/-- A history is the same after a split was recorded and taken out again. -/
theorem remove_put_history {history : SplitHistory} {split : StockSplit}
    (hnone : history.on? split.date = none) :
    SplitHistory.remove { history with splits := history.splits.put split } split.date = history := by
  have hsplits : (history.splits.put split).erase split.date = history.splits := by
    apply Register.ext_get?
    intro date
    rw [Register.get?_erase]
    split
    · rename_i hdate
      rw [hdate]
      exact hnone.symm
    · rename_i hdate
      exact Register.get?_put_of_ne hdate
  show SplitHistory.mk _ ((history.splits.put split).erase split.date) = history
  rw [hsplits]

/-- What is left of the ledger when the history of a security is put back. -/
theorem withHistory_withHistory {s : Security} (hget : l.security? s.id = some s)
    (history : SplitHistory) (lots : Register Lot) :
    withHistory { l.withHistory s history with lots } { s with history } s.history =
      { l with lots } := by
  have hsecurities : (l.securities.put { s with history }).put s = l.securities := by
    apply Register.ext_get?
    intro id
    by_cases hid : id = s.id
    · rw [hid, show l.securities.get? s.id = some s from hget]
      exact Register.get?_put_self s _
    · rw [Register.get?_put_of_ne hid, Register.get?_put_of_ne hid]
  show ({ l with securities := (l.securities.put { s with history }).put s, lots } : Ledger) = _
  rw [hsecurities]

/-- Taking out a split that is there. -/
theorem removeSplit_of_on? {id : SecurityId} {s : Security} {date : Date} {split : StockSplit}
    (hget : l.security? id = some s) (hon : s.history.on? date = some split) :
    l.removeSplit id date = (do
      return (some split, ← rederiveLotsOfSecurity (l.withHistory s (s.history.remove date)) id)) := by
  unfold removeSplit
  rw [hget]
  simp only [orError, bind, Except.bind, hon]
  rfl

/-- Lots of which only the shares as of the purchase date were changed get these back when they are
derived again, unless a lot of the security that has no shares yet cannot be derived. -/
theorem LotsFollow.rederive_back (h : l.LotsFollow) {id : SecurityId} {lots : Register Lot}
    (hlots : ∀ key, ∃ p, lots.get? key =
      (l.lot? key).map fun lot => { lot with purchaseShares := p })
    (hothers : ∀ key, l.splitBy id key = false → lots.get? key = l.lot? key) :
    rederiveLotsOfSecurity { l with lots } id = .ok l ∨
      ∃ key fault, l.Underivable key fault ∧ l.splitBy id key = true ∧
        rederiveLotsOfSecurity { l with lots } id = .error fault := by
  cases hderive : rederiveLotsOfSecurity { l with lots } id with
  | error fault =>
    right
    obtain ⟨key, lot₁, hlot₁, haffected, hfault⟩ := rederiveLots_eq_error hderive
    obtain ⟨p, hp⟩ := hlots key
    obtain ⟨lot, hlot, rfl⟩ := Option.map_eq_some_iff.mp (hp.symm.trans hlot₁)
    exact ⟨key, fault, h.underivable hlot hfault, haffected, rfl⟩
  | ok l₃ =>
    left
    have hagain := rederiveLotsOfSecurity_eq_ok hderive
    have hrestored : l₃.lots = l.lots := by
      apply Register.ext_get?
      intro key
      obtain ⟨p, hp⟩ := hlots key
      show l₃.lot? key = l.lot? key
      cases hlot : l.lot? key with
      | none =>
        rw [hlot] at hp
        exact (hagain.unaffected key fun _ => hp).trans hp
      | some lot =>
        rw [hlot] at hp
        cases haffected : l.splitBy id key with
        | true =>
          obtain ⟨q, hq, hlot₃⟩ := hagain.derived key _ hp haffected
          rw [hlot₃, h.purchaseShares_eq hlot (covering_of_lotPurchaseShares hq)]
        | false =>
          have hleft := hagain.unaffected key
            fun htrue => (Bool.false_ne_true (haffected.symm.trans htrue)).elim
          rw [hleft, ← hlot]
          exact hothers key haffected
    rw [hagain.same, hrestored]

/-- A split that is taken out again leaves the ledger as it was before, unless a lot of the security
that has no shares yet cannot be derived. -/
theorem addSplit_removeSplit (h : l.LotsFollow) {id : SecurityId} {split : StockSplit}
    (hadd : l.addSplit id split = .ok l₁) :
    l₁.removeSplit id split.date = .ok (some split, l) ∨
      ∃ key fault, l.Underivable key fault ∧ l.splitBy id key = true ∧
        l₁.removeSplit id split.date = .error (.arithmetic fault) := by
  obtain ⟨s, l₂, hget, hnone, rfl, hrederived⟩ := addSplit_eq_ok hadd
  obtain rfl := id_of_security hget
  have hget₁ : l₁.security? s.id =
      some { s with history := { s.history with splits := s.history.splits.put split } } := by
    rw [hrederived.same]
    exact Register.get?_put_self _ l.securities
  have hon : SplitHistory.on? { s.history with splits := s.history.splits.put split } split.date =
      some split := Register.get?_put_self split s.history.splits
  -- taking the split out leaves all but the lots as it was, and these are derived again
  have hback : withHistory l₁
      { s with history := { s.history with splits := s.history.splits.put split } }
      (SplitHistory.remove { s.history with splits := s.history.splits.put split } split.date) =
        { l with lots := l₁.lots } := by
    rw [remove_put_history hnone, hrederived.same]
    exact withHistory_withHistory hget _ _
  have hremove : l₁.removeSplit s.id split.date = (do
      return (some split, ← rederiveLotsOfSecurity { l with lots := l₁.lots } s.id)) := by
    rw [← hback]
    exact removeSplit_of_on? hget₁ hon
  have hothers : ∀ key, l.splitBy s.id key = false → l₁.lots.get? key = l.lot? key := by
    intro key hfalse
    exact hrederived.unaffected key
      fun htrue => (Bool.false_ne_true (hfalse.symm.trans htrue)).elim
  rcases h.rederive_back hrederived.lot?_eq hothers with hrestored | ⟨key, fault, hlot, hsplit, hfault⟩
  · left
    rw [hremove, hrestored]
    rfl
  · refine .inr ⟨key, fault, hlot, hsplit, ?_⟩
    rw [hremove, hfault]
    rfl

/-! ## In every reachable ledger -/

/-- What comes of recording a split, where the ledger was as given before, and of taking it out
again. -/
def Restores (l : Ledger) (id : SecurityId) (removal : Except ArithmeticFault (Aftermath Ledger)) :
    Prop :=
  removal = .ok (none, l) ∨
    ∃ key fault, l.Underivable key fault ∧ l.splitBy id key = true ∧ removal = .error fault

theorem LotsFollow.restores (h : l.LotsFollow) {id : SecurityId} {split : StockSplit}
    (hadd : l.perform (.addSplit id split) = .ok (none, l₁)) :
    l.Restores id (l₁.perform (.removeSplit id split.date)) := by
  have hremove := addSplit_removeSplit h (attempt_eq_ok_none hadd)
  show l.Restores id (attempt l₁ (Prod.snd <$> l₁.removeSplit id split.date))
  rcases hremove with hrestored | ⟨key, fault, hunderivable, hsplit, hfault⟩
  · rw [hrestored]
    exact .inl rfl
  · rw [hfault]
    exact .inr ⟨key, fault, hunderivable, hsplit, rfl⟩

theorem LotsFollow.restores_session {s s₁ : Session} (h : s.ledger.LotsFollow)
    {security : SecurityId} {split : StockSplit}
    (hadd : s.perform (.addSplit security split) = .ok (none, s₁)) :
    s.ledger.Restores security
      (Prod.map id Session.ledger <$> s₁.perform (.deleteSplit security split.date)) := by
  rw [Session.perform_direct s₁ rfl]
  exact h.restores (Session.perform_direct_of_ok rfl hadd)

/-- Lots follow the splits, dates and securities under them, whatever was done to the ledger. An
operation on any of these, directly or in a session, keeps the shares as of the sale date of every lot,
and a split that is taken out again leaves the ledger as it was. -/
theorem lots_follow (h : l.Reachable) :
    (∀ key lot, l.lot? key = some lot → l.Follows lot ∨ ∃ fault, l.Uncomputable key fault) ∧
    (∀ edit : Edit, edit.rederives = true ∨ .lots ∉ edit.touches →
      ∀ refusal l₁, l.perform edit = .ok (refusal, l₁) → ∀ key,
        (l₁.lot? key).map Lot.adjustedShares = (l.lot? key).map Lot.adjustedShares) ∧
    (∀ (s : Session) (edit : Session.Edit), s.ledger = l →
      (edit.direct l.settings).rederives = true ∨ .lots ∉ (edit.direct l.settings).touches →
      ∀ refusal s₁, s.perform edit = .ok (refusal, s₁) → ∀ key,
        (s₁.ledger.lot? key).map Lot.adjustedShares = (l.lot? key).map Lot.adjustedShares) ∧
    (∀ id split l₁, l.perform (.addSplit id split) = .ok (none, l₁) →
      l.Restores id (l₁.perform (.removeSplit id split.date))) ∧
    ∀ (s : Session) security split s₁, s.ledger = l →
      s.perform (.addSplit security split) = .ok (none, s₁) → l.Restores security
        (Prod.map id Session.ledger <$> s₁.perform (.deleteSplit security split.date)) := by
  have hfollow := h.lotsFollow
  refine ⟨fun key lot => hfollow.follows_or_uncomputable,
    fun edit hedit refusal l₁ => adjustedShares_perform hedit, ?_,
    fun id split l₁ => hfollow.restores, ?_⟩
  · rintro s edit rfl hedit refusal s₁ hperform
    exact adjustedShares_perform_session hedit hperform
  · rintro s security split s₁ rfl hadd
    exact hfollow.restores_session hadd

/-- A purchase before a split and a sale two years after it, with a lot of both. -/
def heldAcrossSplit : List Edit := [
  .addSecurity "S",
  .addSplit ⟨1⟩ ⟨.june 20, ⟨.whole 3, 1⟩⟩,
  .addTransaction ⟨7⟩ (.june 19) (some ⟨1⟩),
  .addEntry ⟨2⟩ none (some (.whole 10)) none,
  .addTransaction ⟨7⟩ (.june 22) (some ⟨1⟩),
  .addEntry ⟨4⟩ none (some (-.whole 4)) none,
  .insertLot ⟨⟨3⟩, ⟨5⟩⟩,
  .setLotShares ⟨⟨3⟩, ⟨5⟩⟩ (.whole 4)]

/-- One more split in between. -/
def doubled : StockSplit := ⟨.june 21, ⟨.whole 2, 1⟩⟩

theorem lots_follow_heldAcrossSplit : ∃ (l l₁ : Ledger) (s₁ : Session) (lot lot₁ : Lot),
    l.Reachable ∧ l.lot? ⟨⟨3⟩, ⟨5⟩⟩ = some lot ∧ l.Follows lot ∧
      l.perform (.addSplit ⟨1⟩ doubled) = .ok (none, l₁) ∧
      l₁.lot? ⟨⟨3⟩, ⟨5⟩⟩ = some lot₁ ∧ lot₁.adjustedShares = lot.adjustedShares ∧
      lot₁.purchaseShares ≠ lot.purchaseShares ∧
      l₁.perform (.removeSplit ⟨1⟩ (.june 21)) = .ok (none, l) ∧
      (Session.start l).perform (.addSplit ⟨1⟩ doubled) = .ok (none, s₁) ∧
      (∀ key, (s₁.ledger.lot? key).map Lot.adjustedShares = (l.lot? key).map Lot.adjustedShares) ∧
      Prod.map id Session.ledger <$> s₁.perform (.deleteSplit ⟨1⟩ (.june 21)) = .ok (none, l) := by
  have hcheck : (((Ledger.new .standard).performAll heldAcrossSplit).toOption.any fun l =>
      (l.perform (.addSplit ⟨1⟩ doubled)).toOption.any fun (refusal, l₁) =>
        ((Session.start l).perform (.addSplit ⟨1⟩ doubled)).toOption.any fun (refusal', _) =>
          (l.lot? ⟨⟨3⟩, ⟨5⟩⟩).any fun lot => (l₁.lot? ⟨⟨3⟩, ⟨5⟩⟩).any fun lot₁ =>
            refusal.isNone ∧ refusal'.isNone ∧ lot₁.purchaseShares ≠ lot.purchaseShares ∧
              ∀ x ∈ l.lots.items, x.adjustedShares ≠ 0) = true := by
    decide +kernel
  obtain ⟨l, hl, hcheck⟩ := exists_ok_of_any hcheck
  obtain ⟨⟨refusal, l₁⟩, hl₁, hcheck⟩ := exists_ok_of_any hcheck
  obtain ⟨⟨refusal', s₁⟩, hs₁, hcheck⟩ := exists_ok_of_any hcheck
  obtain ⟨lot, hlot, hcheck⟩ := (Option.any_eq_true _ _).mp hcheck
  obtain ⟨lot₁, hlot₁, hcheck⟩ := (Option.any_eq_true _ _).mp hcheck
  obtain ⟨hrefusal, hrefusal', hne, hsized⟩ := of_decide_eq_true hcheck
  obtain rfl := Option.isNone_iff_eq_none.mp hrefusal
  obtain rfl := Option.isNone_iff_eq_none.mp hrefusal'
  have hreachable : l.Reachable := (Reachable.new .standard).performAll hl
  have hgiven : ∀ key, l.lot? key ≠ some (.empty key) := fun key hempty =>
    hsized (.empty key) (Register.get?_eq_some_iff.mp hempty).1 rfl
  have hrestored {removal : Except ArithmeticFault (Aftermath Ledger)}
      (h : l.Restores ⟨1⟩ removal) : removal = .ok (none, l) := by
    rcases h with hrestored | ⟨key, fault, hunderivable, -⟩
    · exact hrestored
    · exact absurd hunderivable.1 (hgiven key)
  obtain ⟨hfollows, hkeeps, hkeeps', hrestores, hrestores'⟩ := lots_follow hreachable
  have hadjusted := hkeeps _ (.inl rfl) none l₁ hl₁ ⟨⟨3⟩, ⟨5⟩⟩
  rw [hlot, hlot₁] at hadjusted
  refine ⟨l, l₁, s₁, lot, lot₁, hreachable, hlot, ?_, hl₁, hlot₁, Option.some.inj hadjusted, hne,
    hrestored (hrestores ⟨1⟩ doubled l₁ hl₁), hs₁,
    hkeeps' (.start l) (.addSplit ⟨1⟩ doubled) rfl (.inl rfl) none s₁ hs₁,
    hrestored (hrestores' (.start l) ⟨1⟩ doubled s₁ rfl hs₁)⟩
  exact (hfollows _ lot hlot).resolve_right fun ⟨fault, h⟩ => hgiven _ h.1

/-- A number with as many places before the point as fit. -/
def tremendous : Decimal := .ofMantissa (10 ^ 28) 0 (by decide)

/-- Two splits, each of which has a ratio that is a decimal, and a lot across both. -/
def heldAcrossTremendousSplits : List Edit := [
  .addSecurity "S",
  .addSplit ⟨1⟩ ⟨.june 20, ⟨tremendous, 1⟩⟩,
  .addSplit ⟨1⟩ ⟨.june 21, ⟨tremendous, 1⟩⟩,
  .addTransaction ⟨7⟩ (.june 19) (some ⟨1⟩),
  .addEntry ⟨2⟩ none (some 1) none,
  .addTransaction ⟨7⟩ (.june 22) (some ⟨1⟩),
  .addEntry ⟨4⟩ none (some (-1)) none,
  .insertLot ⟨⟨3⟩, ⟨5⟩⟩]

/-- A ratio of two numbers that are so small that compounding it with itself leaves none of either. -/
def vanishing : SplitRatio := ⟨.oneIn 20, .oneIn 20⟩

/-- A ratio that undoes one of them. -/
def restoring : SplitRatio :=
  ⟨.ofMantissa 100000000000000000000 0 (by decide), .ofMantissa 100000000000000000000 0 (by decide)⟩

/-- Two splits that leave shares as they are, and a lot across both. -/
def heldAcrossVanishingSplits : List Edit := [
  .addSecurity "S",
  .addSplit ⟨1⟩ ⟨.june 20, vanishing⟩,
  .addSplit ⟨1⟩ ⟨.june 21, vanishing⟩,
  .addTransaction ⟨7⟩ (.june 18) (some ⟨1⟩),
  .addEntry ⟨2⟩ none (some 1) none,
  .addTransaction ⟨7⟩ (.june 22) (some ⟨1⟩),
  .addEntry ⟨4⟩ none (some (-1)) none,
  .insertLot ⟨⟨3⟩, ⟨5⟩⟩]

/-- A lot without shares may not follow: what backs them cannot be computed. Where it follows, a split
may still not be taken out again: the round trip of no shares divides by a ratio of zero. -/
theorem exists_lot_not_follows :
    (∃ (l : Ledger) (lot : Lot), l.Reachable ∧ l.lot? ⟨⟨3⟩, ⟨5⟩⟩ = some lot ∧ ¬ l.Follows lot ∧
      l.covering (l.lotContext ⟨⟨3⟩, ⟨5⟩⟩) lot.adjustedShares = .error .multiplicationOverflow) ∧
    ∃ l l₁ : Ledger, l.Reachable ∧ (∀ lot ∈ l.lots.items, l.Follows lot) ∧
      l.perform (.addSplit ⟨1⟩ ⟨.june 19, restoring⟩) = .ok (none, l₁) ∧
      l₁.perform (.removeSplit ⟨1⟩ (.june 19)) = .error .divisionByZero := by
  constructor
  · have hcheck : (((Ledger.new .standard).performAll heldAcrossTremendousSplits).toOption.any
        fun l => (l.lot? ⟨⟨3⟩, ⟨5⟩⟩).any fun lot =>
          l.covering (l.lotContext ⟨⟨3⟩, ⟨5⟩⟩) lot.adjustedShares =
            .error .multiplicationOverflow) = true := by
      decide +kernel
    obtain ⟨l, hl, hcheck⟩ := exists_ok_of_any hcheck
    obtain ⟨lot, hlot, hcheck⟩ := (Option.any_eq_true _ _).mp hcheck
    have hfault := of_decide_eq_true hcheck
    refine ⟨l, lot, (Reachable.new .standard).performAll hl, hlot, ?_, hfault⟩
    intro hfollows
    rw [follows_iff (key_of_lot hlot), hfault] at hfollows
    cases hfollows
  · have hcheck : (((Ledger.new .standard).performAll heldAcrossVanishingSplits).toOption.any
        fun l => (l.perform (.addSplit ⟨1⟩ ⟨.june 19, restoring⟩)).toOption.any fun done =>
          done.1.isNone ∧ (∀ lot ∈ l.lots.items,
            l.covering (l.lotContext lot.key) lot.adjustedShares = .ok lot.purchaseShares) ∧
          done.2.perform (.removeSplit ⟨1⟩ (.june 19)) = .error .divisionByZero) = true := by
      decide +kernel
    obtain ⟨l, hl, hcheck⟩ := exists_ok_of_any hcheck
    obtain ⟨⟨refusal, l₁⟩, hl₁, hcheck⟩ := exists_ok_of_any hcheck
    obtain ⟨hrefusal, hfollows, hfault⟩ := of_decide_eq_true hcheck
    obtain rfl := Option.isNone_iff_eq_none.mp hrefusal
    exact ⟨l, l₁, (Reachable.new .standard).performAll hl, hfollows, hl₁, hfault⟩

end Lotbook.Ledger
