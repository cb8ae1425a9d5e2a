/-
# Lotbook.Proofs.PositionCounts -- positions count shares by account and security

Positions are a count of the shares of entries at the accounts and securities of their transactions
(`Positions.counting`), as long as no addition rounds. A transaction without a security has no place.
Their summaries give, for each account and security, what was counted there
(`Positions.summaries_exact`).
-/
import Lotbook.Proofs.Tallies

namespace Lotbook

namespace Positions

/-! ## Exact results -/

/-- The key of the transaction that an entry belongs to, if there is one with a security. -/
def ownerKey? (owner : Option Transaction) : Option HoldingKey :=
  owner.bind fun t => keyOf? t.id t.account t.security

/-- The exact result of adding shares to what was counted for a transaction. -/
def postResults (p : Positions) (owner : Option Transaction) (shares : Int) : List Int :=
  ((ownerKey? owner).map fun key => (p.holdingAt key).shares.units + shares).toList

/-- The share quantities of a transaction. -/
def quantityTerms (l : Ledger) (t : Transaction) : List Decimal :=
  (l.details t).filterMap Entry.quantity

/-- The exact results of taking a transaction from an old key to its key now. -/
def moveResults (p : Positions) (oldKey newKey : Option HoldingKey) (terms : List Decimal) :
    List Int :=
  (oldKey.map fun _ => (newKey.map fun key => (p.holdingAt key).shares.units).getD 0 -
    (terms.map Decimal.units).sum).toList ++ Decimal.partialSums terms

/-- The exact results of all additions and subtractions that are carried out for a notice. -/
def results (c : ReportContext) (p : Positions) : Notice → List Int
  | .added (.entry e) => p.postResults (c.ownerOf? e .empty) e.quantityOrZero.units
  | .changed (.transaction t) previous =>
      let old := Touched.restored previous t
      if old.account = t.account ∧ old.security = t.security then []
      else
        p.moveResults (ownerKey? (some old)) (ownerKey? (some t)) (quantityTerms c.ledger t)
  | .changed (.entry e) previous =>
      match previous.quantity? with
      | some old =>
          let delta := e.quantityOrZero.units - (old.getD 0).units
          delta :: p.postResults (c.ownerOf? e .empty) delta
      | none => []
  | .deleted (.entry e) previous =>
      p.postResults (c.ownerOf? e previous) (-((previous.quantity?.getD e.quantity).getD 0).units)
  | _ => []

/-- Whether a notice is taken in without rounding. -/
def Exact (c : ReportContext) (p : Positions) (n : Notice) : Prop :=
  ∀ u ∈ p.results c n, Decimal.Representable u

instance (c : ReportContext) (p : Positions) (n : Notice) : Decidable (Exact c p n) :=
  inferInstanceAs (Decidable (∀ u ∈ p.results c n, Decimal.Representable u))

/-! ## What is counted -/

/-- A holding is filed by a transaction and its account and security. -/
def spotOf : HoldingKey ≃ Spot PositionKey where
  toFun key := (key.transaction, ⟨key.account, key.security⟩)
  invFun x := ⟨x.1, x.2.account, x.2.security⟩
  left_inv _ := rfl
  right_inv _ := rfl

/-- The shares and the count of a holding. -/
def figures (holding : Holding) : Int × Int := (holding.shares.units, holding.count)

/-- Positions as a count of shares at accounts and securities. -/
def counter : Counter Positions PositionKey where
  place? account security := security.map fun s => ⟨account, s⟩
  value _ quantity := (quantity.getD 0).units
  tally p x := ((p.holdings.get? (spotOf.symm x)).map figures).getD 0
  Booked p x := p.holdings.contains (spotOf.symm x) = true

variable {c : ReportContext} {p p' : Positions}

theorem spot?_eq (owner : Option Transaction) :
    counter.spot? owner = (ownerKey? owner).map spotOf := by
  cases owner with
  | none => rfl
  | some t =>
    rw [ownerKey?, Option.bind_some, keyOf?]
    cases hsecurity : t.security <;> simp [Counter.spot?, counter, spotOf, hsecurity]

theorem tally_eq (p : Positions) (key : HoldingKey) :
    counter.tally p (spotOf key) = figures (p.holdingAt key) := by
  change ((p.holdings.get? key).map figures).getD 0 = _
  rw [holdingAt]
  cases p.holdings.get? key <;> rfl

theorem key_holdingAt (p : Positions) (key : HoldingKey) : (p.holdingAt key).key = key := by
  rw [holdingAt]
  cases hkey : p.holdings.get? key with
  | none => rfl
  | some holding => exact Register.key_of_get? hkey

theorem spotOf_eq_iff {k key : HoldingKey} : some (spotOf key) = some (spotOf k) ↔ k = key := by
  rw [Option.some_inj, spotOf.apply_eq_iff_eq, eq_comm]

theorem booked_iff {k : HoldingKey} : counter.Booked p (spotOf k) ↔ ∃ h, p.holdings.get? k = some h :=
  Register.contains_iff

/-- Putting a holding in place of another counts at its own spot only. -/
theorem posts_put (holding : Holding) {key : HoldingKey} {v : Int × Int} (hkey : holding.key = key)
    (hfigures : figures holding = figures (p.holdingAt key) + v) :
    counter.Posts p ⟨p.holdings.put holding⟩ (some (spotOf key)) v := by
  have hput := Register.get?_put_of_key (j := key) hkey p.holdings
  refine ⟨fun x => ?_, fun x hx => ?_⟩
  · obtain ⟨k, rfl⟩ := spotOf.surjective x
    rw [tally_eq, tally_eq, holdingAt, hput]
    simp only [spotOf_eq_iff]
    by_cases hk : k = key
    · rw [if_pos hk, if_pos hk, hk]
      exact hfigures
    · rw [if_neg hk, if_neg hk, add_zero]
      rfl
  · obtain ⟨k, rfl⟩ := spotOf.surjective x
    obtain ⟨found, hfound⟩ := booked_iff.mp hx
    change (p.holdings.put holding).get? k = some found at hfound
    rw [hput] at hfound
    by_cases hk : k = key
    · exact .inr (spotOf_eq_iff.mpr hk)
    · rw [if_neg hk] at hfound
      exact .inl (booked_iff.mpr ⟨found, hfound⟩)

theorem posts_none (p : Positions) (v : Int × Int) : counter.Posts p p none v :=
  ⟨fun x => by simp, fun _ hx => .inl hx⟩

theorem posts_zero (p : Positions) (spot : Option (Spot PositionKey)) : counter.Posts p p spot 0 :=
  ⟨fun x => by simp, fun _ hx => .inl hx⟩

theorem addCount_posts (p : Positions) (t : Transaction) (count : Int) :
    counter.Posts p (p.addCount (keyOf? t.id t.account t.security) count) (counter.spot? (some t))
      (0, count) := by
  rw [spot?_eq, ownerKey?, Option.bind_some]
  cases keyOf? t.id t.account t.security with
  | none => exact posts_none p _
  | some key => exact posts_put _ (p.key_holdingAt key) (by simp [figures])

theorem addShares_posts {owner : Option Transaction} {shares : Decimal}
    (h : ∀ u ∈ p.postResults owner shares.units, Decimal.Representable u) :
    ∃ p', p.addShares owner shares = .ok p' ∧
      counter.Posts p p' (counter.spot? owner) (shares.units, 0) := by
  rw [spot?_eq]
  rw [postResults] at h
  cases hkey : ownerKey? owner with
  | none =>
    rw [ownerKey?] at hkey
    exact ⟨p, by rw [addShares, hkey], posts_none p _⟩
  | some key =>
    rw [hkey] at h
    rw [ownerKey?] at hkey
    rw [addShares, hkey]
    by_cases hzero : shares = 0
    · refine ⟨p, if_pos hzero, ?_⟩
      rw [hzero]
      exact posts_zero p _
    · obtain ⟨sum, hsum, hunits⟩ := Decimal.add_exact (h _ List.mem_cons_self)
      refine ⟨⟨p.holdings.put { p.holdingAt key with shares := sum }⟩, ?_, ?_⟩
      · simp only [if_neg hzero, hsum]
        rfl
      · refine posts_put { p.holdingAt key with shares := sum }
          (p.key_holdingAt key) ?_
        simp [figures, hunits]

/-- The terms of a transaction's quantity are the shares of its entries. -/
theorem sum_quantityTerms (l : Ledger) (t : Transaction) :
    ((quantityTerms l t).map Decimal.units).sum = ((l.details t).map counter.valueOf).sum :=
  Counter.sum_filterMap_units Entry.quantity (l.details t)

/-- A change of shares is counted as the difference. -/
theorem entry_changed {e : Entry} {previous : Previous}
    (h : p.Exact c (.changed (.entry e) previous)) :
    ∃ p', p.notify c (.changed (.entry e) previous) = .ok p' ∧
      counter.Posts p p' (counter.spot? (c.ownerOf? e .empty))
        (counter.valueOf e - counter.valueOf (e.restored previous), 0) := by
  rw [Exact, results] at h
  rw [notify]
  cases hquantity : previous.quantity? with
  | none =>
    refine ⟨p, rfl, ?_⟩
    have hvalue : counter.valueOf e - counter.valueOf (e.restored previous) = 0 := by
      simp [Counter.valueOf, counter, Entry.restored, hquantity]
    rw [hvalue]
    exact posts_zero p _
  | some old =>
    rw [hquantity] at h
    obtain ⟨delta, hdelta, hunits⟩ := Decimal.sub_exact (h _ List.mem_cons_self)
    have hvalue : counter.valueOf e - counter.valueOf (e.restored previous) = delta.units := by
      rw [hunits]
      simp [Counter.valueOf, counter, Entry.restored, hquantity, Entry.quantityOrZero]
    rw [hvalue]
    simp only [hdelta]
    exact addShares_posts fun u hu => h u (List.mem_cons_of_mem _ (hunits ▸ hu))

/-! ## Moves -/

/-- Putting holdings at the old and the new key of a transaction, where there are such keys. -/
def moved (p : Positions) (oldKey newKey : Option HoldingKey) (left total : Decimal) : Positions :=
  let holdings :=
    match oldKey with
    | some key => p.holdings.put ⟨key, left, -1⟩
    | none => p.holdings
  match newKey with
  | some key => ⟨holdings.put ⟨key, total, 1⟩⟩
  | none => ⟨holdings⟩

theorem get?_moved (oldKey newKey : Option HoldingKey) (left total : Decimal) (k : HoldingKey) :
    (p.moved oldKey newKey left total).holdings.get? k =
      if newKey = some k then some ⟨k, total, 1⟩
      else if oldKey = some k then some ⟨k, left, -1⟩ else p.holdings.get? k := by
  have hput (r : Register Holding) (key : HoldingKey) (shares : Decimal) (count : Int) :
      (r.put ⟨key, shares, count⟩).get? k =
        if some key = some k then some ⟨k, shares, count⟩ else r.get? k := by
    rw [Register.get?_put_of_key (j := key) rfl]
    by_cases hk : k = key
    · rw [hk, if_pos rfl, if_pos rfl]
    · rw [if_neg hk, if_neg fun h => hk (Option.some.inj h).symm]
  cases newKey <;> cases oldKey <;> simp only [moved, hput, reduceCtorEq, if_false]

theorem moved_moves {oldKey newKey : Option HoldingKey} {left total : Decimal}
    (hleft : oldKey.isSome → left.units =
      (newKey.map fun key => (p.holdingAt key).shares.units).getD 0 - total.units) :
    counter.Moves p (p.moved oldKey newKey left total) (oldKey.map spotOf) (newKey.map spotOf)
      total.units := by
  have hspot {key : Option HoldingKey} {k : HoldingKey} :
      key.map spotOf = some (spotOf k) ↔ key = some k := by
    rw [Option.map_eq_some_iff]
    exact ⟨fun ⟨a, ha, hk⟩ => spotOf.injective hk ▸ ha, fun h => ⟨k, h, rfl⟩⟩
  refine ⟨fun x => ?_, fun x hx => ?_⟩
  · obtain ⟨k, rfl⟩ := spotOf.surjective x
    rw [tally_eq, tally_eq, holdingAt, get?_moved]
    simp only [hspot]
    by_cases hnew : newKey = some k
    · rw [if_pos hnew, if_pos hnew]
      rfl
    · rw [if_neg hnew, if_neg hnew]
      by_cases hold : oldKey = some k
      · rw [if_pos hold, if_pos hold, Option.getD_some, figures, hleft (by rw [hold]; rfl)]
        cases newKey with
        | none => rfl
        | some key => simp [tally_eq, figures]
      · rw [if_neg hold, if_neg hold]
        rfl
  · obtain ⟨k, rfl⟩ := spotOf.surjective x
    obtain ⟨found, hfound⟩ := booked_iff.mp hx
    rw [get?_moved] at hfound
    simp only [hspot]
    by_cases hnew : newKey = some k
    · exact .inr (.inl hnew)
    · by_cases hold : oldKey = some k
      · exact .inr (.inr hold)
      · rw [if_neg hnew, if_neg hold] at hfound
        exact .inl (booked_iff.mpr ⟨found, hfound⟩)

/-- What was tracked under the new key of a transaction that moves. -/
theorem tracked_eq (p : Positions) (newKey : Option HoldingKey) :
    (((newKey.bind p.holdings.get?).map Holding.shares).getD 0).units =
      (newKey.map fun key => (p.holdingAt key).shares.units).getD 0 := by
  cases newKey with
  | none => rfl
  | some key =>
    rw [Option.bind_some, Option.map_some, Option.getD_some, holdingAt]
    cases p.holdings.get? key <;> rfl

theorem results_changed {t : Transaction} {previous : Previous}
    (h : ¬ (previous.account?.getD t.account = t.account ∧
      previous.security?.getD t.security = t.security)) :
    p.results c (.changed (.transaction t) previous) =
      p.moveResults (ownerKey? (some (Touched.restored previous t))) (ownerKey? (some t))
        (quantityTerms c.ledger t) :=
  if_neg h

/-- A transaction whose old position was not counted on its own is booked as a whole. -/
theorem move_eq_ok {l : Ledger} {t : Transaction} {account : AccountId}
    {security : Option SecurityId}
    (hfree : ∀ key, keyOf? t.id account security = some key → p.holdings.contains key = false)
    (hexact : ∀ u ∈ p.moveResults (keyOf? t.id account security) (ownerKey? (some t))
      (quantityTerms l t), Decimal.Representable u) :
    ∃ p', p.move l t account security = .ok p' ∧
      counter.Moves p p' ((keyOf? t.id account security).map spotOf)
        (counter.spot? (some t)) ((l.details t).map counter.valueOf).sum := by
  rw [moveResults] at hexact
  obtain ⟨total, htotal, htotalUnits⟩ :=
    Decimal.sum_exact fun u hu => hexact u (List.mem_append_right _ hu)
  rw [spot?_eq, ← sum_quantityTerms, ← htotalUnits]
  rw [← htotalUnits, ← tracked_eq] at hexact
  have hquantity : l.transactionQuantity t = .ok total := htotal
  have hnew : keyOf? t.id t.account t.security = ownerKey? (some t) := rfl
  simp only [move, hquantity, hnew]
  generalize ownerKey? (some t) = newKey at hexact ⊢
  generalize keyOf? t.id account security = oldKey at hfree hexact ⊢
  cases oldKey with
  | none =>
    refine ⟨p.moved none newKey 0 total, ?_, moved_moves fun h => by cases h⟩
    cases newKey <;> rfl
  | some key =>
    obtain ⟨left, hleft, hunits⟩ := Decimal.sub_exact (hexact _ List.mem_cons_self)
    refine ⟨p.moved (some key) newKey left total, ?_, moved_moves fun _ => ?_⟩
    · rw [if_neg (by simp [hfree key rfl])]
      change (do let left ← Decimal.sub _ total; _) = _
      rw [hleft]
      cases newKey <;> rfl
    · rw [hunits, tracked_eq]

/-- A move to nowhere from nowhere books nothing. -/
theorem move_none {l : Ledger} {t : Transaction} {account : AccountId}
    {security : Option SecurityId} (hold : keyOf? t.id account security = none)
    (hnew : ownerKey? (some t) = none)
    (hexact : ∀ u ∈ Decimal.partialSums (quantityTerms l t), Decimal.Representable u) :
    p.move l t account security = .ok p := by
  obtain ⟨total, htotal, -⟩ := Decimal.sum_exact hexact
  have hquantity : l.transactionQuantity t = .ok total := htotal
  have hnew : keyOf? t.id t.account t.security = none := hnew
  simp only [move, hquantity, hnew, hold]
  rfl

/-- A transaction stays where it is if its account and security do, or if it never had a security. -/
theorem transaction_stayed {t : Transaction} {previous : Previous}
    (h : p.Exact c (.changed (.transaction t) previous))
    (hspot : counter.spot? (some (Touched.restored previous t)) = counter.spot? (some t)) :
    ∃ p', p.notify c (.changed (.transaction t) previous) = .ok p' ∧
      counter.Posts p p' none 0 := by
  refine ⟨p, ?_, posts_none p _⟩
  rw [notify]
  by_cases hsame : previous.account?.getD t.account = t.account ∧
      previous.security?.getD t.security = t.security
  · exact if_pos hsame
  · rw [Exact, results_changed hsame] at h
    rw [if_neg hsame]
    -- the account or the security changed, and yet the key did not: there is none
    rw [spot?_eq, spot?_eq] at hspot
    have hkeys := Option.map_injective spotOf.injective hspot
    have hnone : t.security = none := by
      by_contra hsecurity
      obtain ⟨security, hsecurity⟩ := Option.ne_none_iff_exists'.mp hsecurity
      refine hsame ?_
      simp only [ownerKey?, keyOf?, Option.bind_some, hsecurity, Option.map_some,
        Option.map_eq_some_iff, HoldingKey.mk.injEq, Touched.restored] at hkeys
      obtain ⟨old, hold, -, haccount, rfl⟩ := hkeys
      exact ⟨haccount, by rw [hsecurity]; exact hsecurity ▸ hold⟩
    have hnew : ownerKey? (some t) = none := by rw [ownerKey?, Option.bind_some, hnone]; rfl
    exact move_none (hkeys.trans hnew) hnew fun u hu => h u (List.mem_append_right _ hu)

/-- A transaction that moved is booked as a whole. -/
theorem transaction_moved {t : Transaction} {previous : Previous}
    (h : p.Exact c (.changed (.transaction t) previous))
    (hmoved : counter.spot? (some (Touched.restored previous t)) ≠ counter.spot? (some t))
    (hfree : ∀ x, counter.spot? (some (Touched.restored previous t)) = some x →
      ¬ counter.Booked p x) :
    ∃ p', p.notify c (.changed (.transaction t) previous) = .ok p' ∧
      counter.Moves p p' (counter.spot? (some (Touched.restored previous t)))
        (counter.spot? (some t)) ((c.ledger.details t).map counter.valueOf).sum := by
  have hchanged : ¬ (previous.account?.getD t.account = t.account ∧
      previous.security?.getD t.security = t.security) := by
    rintro ⟨haccount, hsecurity⟩
    refine hmoved ?_
    rw [Touched.restored, haccount, hsecurity]
    rfl
  rw [Exact, results_changed hchanged] at h
  rw [notify, if_neg hchanged, spot?_eq]
  refine move_eq_ok (fun key hkey => ?_) h
  refine Bool.eq_false_iff.mpr (hfree (spotOf key) ?_)
  rw [spot?_eq]
  exact congrArg (Option.map spotOf) hkey

theorem entry_deleted {e : Entry} {previous : Previous}
    (h : p.Exact c (.deleted (.entry e) previous)) :
    ∃ p', p.notify c (.deleted (.entry e) previous) = .ok p' ∧
      counter.Posts p p' (counter.spot? (c.ownerOf? e previous))
        (-counter.valueOf (e.restored previous), 0) :=
  addShares_posts h

/-- Positions are a count. -/
def counting (c : ReportContext) : Counting c Positions PositionKey where
  toCounter := counter
  notify p n := p.notify c n
  Exact p n := p.Exact c n
  taken t := ((c.ledger.details t).map counter.valueOf).sum
  entry_added h := addShares_posts h
  entry_changed h := entry_changed h
  entry_deleted h := entry_deleted h
  transaction_added _ := ⟨_, rfl, addCount_posts _ _ _⟩
  transaction_deleted {_ t previous} _ :=
    ⟨_, rfl, addCount_posts _ (Touched.restored previous t) _⟩
  transaction_stayed h hspot := transaction_stayed h hspot
  transaction_moved h hmoved hfree := transaction_moved h hmoved hfree
  ignored {p n} hentry htransaction := by
    obtain ⟨e⟩ | ⟨e, previous⟩ | ⟨e, previous⟩ := n <;> cases e <;>
      first | rfl | exact absurd rfl hentry | exact absurd rfl htransaction

/-! ## Summaries -/

/-- The account and the security of a holding. -/
def placeOf (holding : Holding) : PositionKey := ⟨holding.key.account, holding.key.security⟩

/-- Whether a holding is added to the summary of its position without rounding. -/
def SummaryExact (summaries : Register PositionSummary) (holding : Holding) : Prop :=
  Decimal.Representable
    (((summaries.get? (placeOf holding)).map fun s => s.shareDelta.units).getD 0 +
      holding.shares.units)

instance (summaries : Register PositionSummary) (holding : Holding) :
    Decidable (SummaryExact summaries holding) :=
  inferInstanceAs (Decidable (Decimal.Representable _))

/-- What summaries say about a position: nothing if it has none. -/
def told (summaries : Register PositionSummary) (place : PositionKey) : Int × Int :=
  ((summaries.get? place).map fun s => (s.shareDelta.units, s.countDelta)).getD 0

theorem summarize_exact {summaries : Register PositionSummary} {holding : Holding}
    (h : SummaryExact summaries holding) : ∃ summaries', summarize summaries holding = .ok summaries' ∧
      ∀ place, told summaries' place =
        told summaries place + if placeOf holding = place then figures holding else 0 := by
  set place := placeOf holding with hplace
  set s := (summaries.get? place).getD ⟨place.account, place.security, 0, 0⟩ with hs
  have hunits : s.shareDelta.units =
      ((summaries.get? place).map fun s => s.shareDelta.units).getD 0 := by
    rw [hs]
    cases summaries.get? place <;> rfl
  have htold : told summaries place = (s.shareDelta.units, s.countDelta) := by
    rw [told, hs]
    cases summaries.get? place <;> rfl
  have hkey : Keyed.key s = place := by
    rw [hs]
    cases hfound : summaries.get? place with
    | none => rfl
    | some found => exact Register.key_of_get? hfound
  rw [SummaryExact, ← hplace, ← hunits] at h
  obtain ⟨sum, hsum, hsumUnits⟩ := Decimal.add_exact h
  set next : PositionSummary :=
    { s with shareDelta := sum, countDelta := s.countDelta + holding.count } with hnext
  have hput := Register.get?_put_of_key (x := next) (j := place) hkey summaries
  refine ⟨summaries.put next, ?_, fun other => ?_⟩
  · have hwas : (summaries.get? ⟨holding.key.account, holding.key.security⟩).getD
        ⟨holding.key.account, holding.key.security, 0, 0⟩ = s := rfl
    simp only [summarize, hwas, hsum]
    rfl
  · rw [told, hput]
    by_cases hother : place = other
    · subst hother
      rw [if_pos rfl, if_pos rfl, htold, Option.map_some, Option.getD_some, hnext, hsumUnits]
      rfl
    · rw [if_neg (Ne.symm hother), if_neg hother, add_zero]
      rfl

/-- The summaries say how much the shares at a position went up, but for what is missed, and the number
of transactions. -/
theorem summaries_exact {before after : Ledger}
    (htally : ∀ x, counter.tally p x = counter.outcome before after x)
    (hexact : Throughout summarize SummaryExact .empty p.holdings.items) :
    ∃ summaries, p.summaries = .ok summaries ∧ ∀ place, told summaries place =
      counter.position after place - counter.position before place -
        counter.missedAt before after place := by
  obtain ⟨summaries, hsummaries, htold⟩ := foldlM_collect told placeOf figures
    (fun _ _ h => summarize_exact h) hexact
  refine ⟨summaries, hsummaries, fun place => ?_⟩
  have hsum := Counter.sum_items_of_outcome p.holdings spotOf (f := figures) htally place
  rw [htold, ← hsum]
  exact zero_add _

end Positions

end Lotbook
