/-
# Lotbook.Proofs.Components -- a security is set wherever shares were moved to or from

Transfers that carry shares link transactions, directly or by way of others (`ShareLinked`). As long as
the two ends of each of them have one security (`SharesAligned`), setting the security of a transaction
sets it in all transactions that are linked to it and in no others, lists those that had another one,
and leaves everything aligned (`setSecurity_component`). The walk may stop at a transaction that has the
security already, because then everything behind it has it as well. It comes to nothing exactly where a
lot of a changed transaction cannot be derived with the new security: a result is too large, or the
shares derived break a contract, which tiny shares do across a split (`exists_lot_not_rederived`).
-/
import Lotbook.Proofs.LotsFollow
import Lotbook.Proofs.Transfers
import Mathlib.Logic.Relation

namespace Lotbook.Ledger

variable {l l₁ l₂ : Ledger} {id : TransactionId} {security : Option SecurityId}

/-! ## Chains of transfers -/

/-- A leg of a transfer that carries shares belongs to the one transaction, the other leg to the other.
Since both legs carry shares, this goes both ways. -/
def MovesShares (l : Ledger) (i j : TransactionId) : Prop :=
  ∃ entry e, l.entry? entry = some e ∧ e.quantity.isSome ∧
    l.Joins (fun t t' => t.id = i ∧ t'.id = j) entry

/-- A chain of transfers that carry shares leads from the one transaction to the other. -/
def ShareLinked (l : Ledger) : TransactionId → TransactionId → Prop :=
  Relation.ReflTransGen l.MovesShares

/-- The two transactions of a transfer that carries shares have one security. -/
def SharesAligned (l : Ledger) : Prop :=
  ∀ entry e, l.entry? entry = some e → e.isTransfer = true → e.quantity.isSome →
    l.Joins (fun t t' => t.security = t'.security) entry

theorem sharesAligned_iff : l.SharesAligned ↔ ∀ e ∈ l.entries.items, e.isTransfer = true →
    e.quantity.isSome = true → (l.ends? e.id).any (fun (t, t') => t.security = t'.security) = true := by
  have hjoins (entry : EntryId) : l.Joins (fun t t' => t.security = t'.security) entry ↔
      (l.ends? entry).any (fun (t, t') => t.security = t'.security) = true := by
    rw [Option.any_eq_true]
    constructor
    · rintro ⟨t, t', hends, hsecurity⟩
      exact ⟨(t, t'), hends, decide_eq_true hsecurity⟩
    · rintro ⟨⟨t, t'⟩, hends, hsecurity⟩
      exact ⟨t, t', hends, of_decide_eq_true hsecurity⟩
  constructor
  · intro h e he htransfer hshares
    exact (hjoins e.id).mp (h e.id e (Register.mem_items_iff.mp he) htransfer hshares)
  · intro h entry e he htransfer hshares
    obtain rfl : e.id = entry := id_of_entry he
    exact (hjoins e.id).mpr (h e (Register.mem_items_iff.mpr he) htransfer hshares)

instance (l : Ledger) : Decidable l.SharesAligned := decidable_of_iff _ sharesAligned_iff.symm

/-- The transactions that links lead to are those that shares were moved to or from. -/
theorem Sound.movesShares_of_mem_linked (hs : l.Sound) {i j : TransactionId}
    (hj : j ∈ l.linked i true) : l.MovesShares i j := by
  rw [linked] at hj
  split at hj
  · exact (List.not_mem_nil hj).elim
  · rename_i t ht
    obtain rfl : t.id = i := id_of_transaction ht
    obtain ⟨o, ho, howner'⟩ := List.mem_filterMap.mp (List.mem_of_mem_filter hj)
    obtain ⟨other, hother, ho⟩ := List.mem_filterMap.mp ho
    obtain ⟨e, he, hrelated⟩ := List.mem_filterMap.mp hother
    obtain ⟨he, hshares⟩ := List.mem_filter.mp he
    obtain ⟨entry, hentry, he⟩ := List.mem_filterMap.mp he
    -- both legs have an owner, the one leg the transaction that lists it
    obtain ⟨e', he', howner⟩ := hs.owned.detail t.id t ht entry hentry
    obtain rfl := Option.some.inj (he.symm.trans he')
    obtain ⟨t', ht', howner'', -⟩ := hs.exists_owner ho
    obtain rfl : t'.id = j := Option.some.inj (howner''.symm.trans howner')
    refine ⟨entry, e, he, by simpa using hshares, t, t', ?_, rfl, rfl⟩
    apply ends?_eq_some.mpr
    exact ⟨other, otherLeg?_eq_some.mpr ⟨e, he, hrelated⟩, owner?_eq_some.mpr ⟨e, t.id, he, howner, ht⟩,
      ht'⟩

/-! ## The walk -/

theorem mem_of_nextUnvisited_eq {unvisited queue rest : List TransactionId} {next : TransactionId}
    (h : nextUnvisited unvisited queue = some (next, rest)) :
    next ∈ queue ∧ ∀ i ∈ rest, i ∈ queue := by
  obtain ⟨visited, rfl, -⟩ := nextUnvisited_eq_some h
  exact ⟨by simp, fun i hi => by simp [hi]⟩

/-- What holds of the queue and is passed on along links holds of all that is changed. -/
theorem spreadSecurity_within {P : TransactionId → Prop} (l : Ledger) (source : TransactionId)
    (security : Option SecurityId) (unvisited queue : List TransactionId)
    (hqueue : ∀ i ∈ queue, P i) (hclosed : ∀ i j, P i → j ∈ l.linked i true → P j) :
    ∀ c ∈ (l.spreadSecurity source security unvisited queue).1, P c.1 := by
  -- along the walk: whatever comes into the queue is linked to something that was there before
  fun_induction l.spreadSecurity source security unvisited queue with
  | case1 => exact fun c hc => (List.not_mem_nil hc).elim
  | case2 l unvisited queue next rest hnext _ _ ih =>
    exact ih (fun i hi => hqueue i ((mem_of_nextUnvisited_eq hnext).2 i hi)) hclosed
  | case3 l unvisited queue next rest hnext _ t _ _ queue' ih =>
    obtain ⟨hmem, hrest⟩ := mem_of_nextUnvisited_eq hnext
    refine ih (fun i hi => ?_) hclosed
    change i ∈ if next = source then rest ++ l.linked next true else rest at hi
    split at hi
    · rcases List.mem_append.mp hi with hi | hi
      · exact hqueue i (hrest i hi)
      · exact hclosed next i (hqueue next hmem) hi
    · exact hqueue i (hrest i hi)
  | case4 l unvisited queue next rest hnext _ t ht _ l₁ queue' changes l₂ heq ih =>
    obtain ⟨hmem, hrest⟩ := mem_of_nextUnvisited_eq hnext
    have hlink := linked_put_security ht security
    rw [heq] at ih
    intro c hc
    rcases List.mem_cons.mp hc with rfl | hc
    · exact hqueue next hmem
    · refine ih (fun i hi => ?_) (fun i j hi hj => hclosed i j hi (hlink i true ▸ hj)) c hc
      rcases List.mem_append.mp hi with hi | hi
      · exact hqueue i (hrest i hi)
      · exact hclosed next i (hqueue next hmem) (hlink next true ▸ hi)

/-- The walk that sets a security. -/
def secured (l : Ledger) (id : TransactionId) (security : Option SecurityId) :
    Changes (Option SecurityId) × Ledger :=
  l.spreadSecurity id security l.transactions.keys [id]

theorem secured_spread (l : Ledger) (id : TransactionId) (security : Option SecurityId) :
    Spread securityField security l (l.secured id security).2 (l.secured id security).1 :=
  spreadSecurity_spread ..

/-- Only linked transactions are changed. -/
theorem Sound.shareLinked_of_mem (hs : l.Sound) {c : TransactionId × Option SecurityId}
    (hc : c ∈ (l.secured id security).1) : l.ShareLinked id c.1 := by
  refine spreadSecurity_within l id security _ _ ?_ ?_ c hc
  · intro i hi
    obtain rfl := List.mem_singleton.mp hi
    exact .refl
  · intro i j hi hj
    exact hi.tail (hs.movesShares_of_mem_linked hj)

/-- All linked transactions have the security in the end. -/
theorem Sound.secured_hasSecurity (hs : l.Sound) (haligned : l.SharesAligned)
    (security : Option SecurityId) {i : TransactionId} (hlinked : l.ShareLinked id i) :
    (l.secured id security).2.HasSecurity security i := by
  have hspread := l.secured_spread id security
  obtain ⟨hqueue, hreaches⟩ := spreadSecurity_reaches l id security l.transactions.keys [id]
    fun i hi t ht => absurd (Register.mem_keys_iff.mpr ⟨t, ht⟩) hi
  induction hlinked with
  | refl => exact hqueue id List.mem_cons_self
  | tail _ hmoves ih =>
    obtain ⟨entry, e, he, hshares, t, t', hends, rfl, rfl⟩ := hmoves
    by_cases hsame : t'.id = t.id
    · rw [hsame]
      exact ih
    · by_cases hchanged : t.id ∈ (l.secured id security).1.map Prod.fst
      · -- a transaction that was changed passes the security on
        obtain ⟨c, hc, hct⟩ := List.mem_map.mp hchanged
        refine hreaches c hc t'.id ?_
        rw [hct]
        exact hs.mem_linked he hends (fun _ => hshares) hsame
      · -- one that was not had it before, and so had the other end
        apply hspread.hasSecurity
        obtain ⟨x, hx, htransfer⟩ := exists_of_ends? hends
        obtain rfl := Option.some.inj (he.symm.trans hx)
        obtain ⟨u, u', hu, hsecurity⟩ := haligned entry e he htransfer hshares
        obtain ⟨rfl, rfl⟩ := Prod.mk.inj (Option.some.inj (hends.symm.trans hu))
        obtain ⟨other, -, ht, ht'⟩ := ends?_eq_some.mp hends
        have hheld : t.security = security := by
          refine ih t ?_
          rw [hspread.transaction?_eq, if_neg hchanged]
          exact transaction?_of_owner? ht
        intro w hw
        obtain rfl := Option.some.inj ((transaction?_of_owner? ht').symm.trans hw)
        exact hsecurity.symm.trans hheld

/-! ## What setting a security comes to -/

/-- Every transaction that is linked to the given one has the security; all else is as it was, except
that lots were derived again. -/
structure Resecured (l : Ledger) (id : TransactionId) (security : Option SecurityId) (l₁ : Ledger) :
    Prop where
  same : l₁ = { l with transactions := l₁.transactions, lots := l₁.lots }
  linked : ∀ i, l.ShareLinked id i →
    l₁.transaction? i = (l.transaction? i).map fun t => { t with security }
  others : ∀ i, ¬ l.ShareLinked id i → l₁.transaction? i = l.transaction? i

/-- Only lots can differ between two outcomes. -/
theorem Resecured.unique (h : l.Resecured id security l₁) (h' : l.Resecured id security l₂)
    (hlots : l₁.lots = l₂.lots) : l₁ = l₂ := by
  have htransactions : l₁.transactions = l₂.transactions := by
    apply Register.ext_get?
    intro i
    by_cases hi : l.ShareLinked id i
    · exact (h.linked i hi).trans (h'.linked i hi).symm
    · exact (h.others i hi).trans (h'.others i hi).symm
  rw [h.same, h'.same, htransactions, hlots]

/-- The walk leaves all linked transactions with the security, and all else as it was. -/
theorem Sound.resecured_secured (hs : l.Sound) (haligned : l.SharesAligned) (id : TransactionId)
    (security : Option SecurityId) :
    l.Resecured id security (l.secured id security).2 ∧
      (l.secured id security).2.lots = l.lots := by
  have hspread := l.secured_spread id security
  refine ⟨⟨?_, fun i hi => ?_, fun i hi => ?_⟩, ?_⟩
  · rw [hspread.same]
  · rw [hspread.transaction?_eq]
    split
    · rfl
    · -- a linked transaction that was not changed has the security already
      rename_i hnot
      have hheld := hs.secured_hasSecurity haligned security hi
      cases ht : l.transaction? i with
      | none => rfl
      | some t =>
        have hsecurity := hheld t (by rw [hspread.transaction?_eq, if_neg hnot, ht])
        rw [Option.map_some, ← hsecurity]
  · rw [hspread.transaction?_eq, if_neg]
    intro hmem
    obtain ⟨c, hc, rfl⟩ := List.mem_map.mp hmem
    exact hi (hs.shareLinked_of_mem hc)
  · rw [hspread.same]

/-- The transactions that are listed are the linked ones that had another security. -/
theorem Sound.mem_secured_iff (hs : l.Sound) (haligned : l.SharesAligned) {i : TransactionId}
    {old : Option SecurityId} : (i, old) ∈ (l.secured id security).1 ↔
      ∃ t, l.transaction? i = some t ∧ t.security = old ∧ old ≠ security ∧ l.ShareLinked id i := by
  have hspread := l.secured_spread id security
  constructor
  · intro hmem
    obtain ⟨t, ht, hold, hne⟩ := hspread.listed _ hmem
    exact ⟨t, ht, hold, hne, hs.shareLinked_of_mem hmem⟩
  · rintro ⟨t, ht, rfl, hne, hlinked⟩
    have hin : i ∈ (l.secured id security).1.map Prod.fst := by
      by_contra hnot
      apply hne
      refine hs.secured_hasSecurity haligned security hlinked t ?_
      rw [hspread.transaction?_eq, if_neg hnot, ht]
    obtain ⟨⟨_, old⟩, hmem, rfl⟩ := List.mem_map.mp hin
    obtain ⟨t', ht', rfl, -⟩ := hspread.listed _ hmem
    obtain rfl := Option.some.inj (ht.symm.trans ht')
    exact hmem

/-! ## Lots -/

/-- The transaction that an entry belongs to is linked and has another security. -/
def Resecures (l : Ledger) (id : TransactionId) (security : Option SecurityId) (entry : EntryId) :
    Prop :=
  ∃ t, l.owner? entry = some t ∧ l.ShareLinked id t.id ∧ t.security ≠ security

/-- The lots on entries of changed transactions can be derived with the security. -/
def Rederivable (l : Ledger) (id : TransactionId) (security : Option SecurityId) : Prop :=
  ∀ l₁, l.Resecured id security l₁ → l₁.lots = l.lots → ∀ key lot, l.lot? key = some lot →
    l.Resecures id security key.purchase ∨ l.Resecures id security key.sale →
      ∃ p, l₁.lotPurchaseShares key lot.adjustedShares = .ok p

/-- Deriving a lot on entries of changed transactions with the security stops with a fault. -/
def RederivesTo (l : Ledger) (id : TransactionId) (security : Option SecurityId)
    (fault : ArithmeticFault) : Prop :=
  ∃ l₁, l.Resecured id security l₁ ∧ l₁.lots = l.lots ∧ ∃ key lot, l.lot? key = some lot ∧
    (l.Resecures id security key.purchase ∨ l.Resecures id security key.sale) ∧
    l₁.lotPurchaseShares key lot.adjustedShares = .error fault

/-- No lot stops a change of the security exactly if all that matter can be derived. -/
theorem Rederivable.not_rederivesTo (h : l.Rederivable id security) (fault : ArithmeticFault) :
    ¬ l.RederivesTo id security fault := by
  rintro ⟨l₁, hresecured, hsame, key, lot, hlot, hmoved, hfault⟩
  obtain ⟨p, hp⟩ := h l₁ hresecured hsame key lot hlot hmoved
  cases hfault.symm.trans hp

theorem Sound.ownedAmong_iff (hs : l.Sound) (haligned : l.SharesAligned) {entry : EntryId} :
    (l.secured id security).2.ownedAmong ((l.secured id security).1.map Prod.fst) entry = true ↔
      l.Resecures id security entry := by
  have hspread := l.secured_spread id security
  have hentry : Ledger.entry? (l.secured id security).2 entry = l.entry? entry := by
    rw [hspread.same]
    rfl
  rw [ownedAmong, hentry]
  constructor
  · intro h
    split at h
    · rename_i owner howner
      obtain ⟨e, he, howner⟩ := Option.bind_eq_some_iff.mp howner
      obtain ⟨c, hc, rfl⟩ := List.mem_map.mp (List.contains_iff_mem.mp h)
      obtain ⟨t, ht, hold, hne⟩ := hspread.listed c hc
      have hid : t.id = c.1 := id_of_transaction ht
      refine ⟨t, owner?_eq_some.mpr ⟨e, c.1, he, howner, ht⟩, ?_, ?_⟩
      · rw [hid]
        exact hs.shareLinked_of_mem hc
      · rw [show t.security = c.2 from hold]
        exact hne
    · cases h
  · rintro ⟨t, ht, hlinked, hne⟩
    obtain ⟨e, owner, he, howner, hget⟩ := owner?_eq_some.mp ht
    obtain rfl : t.id = owner := id_of_transaction hget
    have hmem := (hs.mem_secured_iff haligned).mpr ⟨t, hget, rfl, hne, hlinked⟩
    simp only [he, Option.bind_some, howner]
    exact List.contains_iff_mem.mpr (List.mem_map_of_mem hmem)

/-- The lots that are derived again are those on entries of changed transactions. -/
theorem Sound.movedBy_iff (hs : l.Sound) (haligned : l.SharesAligned) {key : LotKey} :
    (l.secured id security).2.movedBy (l.secured id security).1 key = true ↔
      l.Resecures id security key.purchase ∨ l.Resecures id security key.sale :=
  Bool.or_eq_true_iff.trans (or_congr (hs.ownedAmong_iff haligned) (hs.ownedAmong_iff haligned))

/-- If the lots can be derived again, they are; otherwise setting the security stops at one of them. -/
theorem Sound.setSecurity_cases (hs : l.Sound) (haligned : l.SharesAligned) {t : Transaction}
    (ht : l.transaction? id = some t) :
    (l.Rederivable id security ∧
      ∃ l₁, l.setSecurity id security = .ok ((l.secured id security).1, l₁)) ∨
    ∃ fault, l.RederivesTo id security fault ∧
      l.setSecurity id security = .error (.arithmetic fault) := by
  obtain ⟨hresecured, hsame⟩ := hs.resecured_secured haligned id security
  have hset : l.setSecurity id security = (do
      return ((l.secured id security).1, ← (l.secured id security).2.rederiveLotsOfTransactions
        ((l.secured id security).1.map Prod.fst))) := by
    rw [setSecurity, if_neg (by simp [ht])]
    rfl
  cases hderive : (l.secured id security).2.rederiveLotsOfTransactions
      ((l.secured id security).1.map Prod.fst) with
  | ok l₁ =>
    have hrederived := rederiveLotsOfTransactions_eq_ok hderive
    refine .inl ⟨fun l₂ hresecured₂ hsame₂ key lot hlot hmoved => ?_, l₁, ?_⟩
    · obtain rfl := hresecured.unique hresecured₂ (hsame.trans hsame₂.symm)
      have hlot₂ : Ledger.lot? (l.secured id security).2 key = some lot :=
        (congrArg (Register.get? · key) hsame).trans hlot
      obtain ⟨p, hp, -⟩ := hrederived.derived key lot hlot₂ ((hs.movedBy_iff haligned).mpr hmoved)
      exact ⟨p, hp⟩
    · rw [hset, hderive]
      rfl
  | error fault =>
    right
    refine ⟨fault, ⟨_, hresecured, hsame, ?_⟩, ?_⟩
    · rw [rederiveLotsOfTransactions] at hderive
      obtain ⟨key, lot, hlot, haffected, hfault⟩ := rederiveLots_eq_error hderive
      have hlot : l.lot? key = some lot := by
        rw [← hlot]
        exact congrArg (Register.get? · key) hsame.symm
      exact ⟨key, lot, hlot, (hs.movedBy_iff haligned).mp haffected, hfault⟩
    · rw [hset, hderive]
      rfl

/-- What setting a security comes to: it is set in all transactions that are linked to the given one, and
in no others. Those that had another one are listed, each once and with the one it had. The transfers stay
between transactions of one security, and lots keep their shares as of the sale date. -/
structure SetsComponent (l : Ledger) (id : TransactionId) (security : Option SecurityId)
    (changes : Changes (Option SecurityId)) (l₁ : Ledger) : Prop where
  resecured : l.Resecured id security l₁
  nodup : (changes.map Prod.fst).Nodup
  mem_changes : ∀ i old, (i, old) ∈ changes ↔ ∃ t, l.transaction? i = some t ∧ t.security = old ∧
    old ≠ security ∧ l.ShareLinked id i
  aligned : l₁.SharesAligned
  adjusted : ∀ key, (l₁.lot? key).map Lot.adjustedShares = (l.lot? key).map Lot.adjustedShares

theorem Sound.setsComponent (hs : l.Sound) (haligned : l.SharesAligned)
    (hset : l.setSecurity id security = .ok ((l.secured id security).1, l₁)) :
    l.SetsComponent id security (l.secured id security).1 l₁ := by
  obtain ⟨hresecured, hsame⟩ := hs.resecured_secured haligned id security
  obtain ⟨l₂, hsecured, hspread, hrederived⟩ := setSecurity_eq_ok hset
  obtain rfl : (l.secured id security).2 = l₂ := congrArg Prod.snd hsecured
  have hkept : l₁ = { l with transactions := l₁.transactions, lots := l₁.lots } := by
    rw [hrederived.same, hresecured.same]
  have htransaction (i : TransactionId) :
      l₁.transaction? i = (l.secured id security).2.transaction? i := by
    rw [hrederived.same]
    rfl
  refine ⟨⟨hkept, ?_, ?_⟩, hspread.nodup, fun i old => hs.mem_secured_iff haligned, ?_,
    fun key => hrederived.adjustedShares_eq hsame key⟩
  · intro i hi
    exact (htransaction i).trans (hresecured.linked i hi)
  · intro i hi
    exact (htransaction i).trans (hresecured.others i hi)
  · intro entry e he htransfer hshares
    have he : l.entry? entry = some e := by
      rw [hkept] at he
      exact he
    exact securities_setSecurity hs hset he hshares (haligned entry e he htransfer hshares)

/-- In a reachable ledger whose transfers of shares are between transactions of one security, setting
the security of a transaction sets it in all transactions that shares were moved to or from, directly or
by way of others, if the lots of those can be derived with it. If not, it stops with the fault of a lot
that cannot. -/
theorem setSecurity_component (hl : l.Reachable) (haligned : l.SharesAligned) {t : Transaction}
    (ht : l.transaction? id = some t) :
    (l.Rederivable id security → ∃ changes l₁, l.setSecurity id security = .ok (changes, l₁) ∧
      l.SetsComponent id security changes l₁) ∧
    (¬ l.Rederivable id security → ∃ fault, l.RederivesTo id security fault ∧
      l.setSecurity id security = .error (.arithmetic fault)) := by
  have hs := hl.sound
  rcases hs.setSecurity_cases haligned ht with ⟨hderives, l₁, hset⟩ | ⟨fault, hlot, hset⟩
  · exact ⟨fun _ => ⟨_, l₁, hset, hs.setsComponent haligned hset⟩, fun hnot => absurd hderives hnot⟩
  · exact ⟨fun h => absurd hlot (h.not_rederivesTo fault), fun _ => ⟨fault, hlot, hset⟩⟩

/-- It is enough to look at the ledger that the walk leaves. -/
theorem Sound.rederivable (hs : l.Sound) (haligned : l.SharesAligned)
    (h : ∀ lot ∈ l.lots.items, ((l.secured id security).2.lotPurchaseShares lot.key
      lot.adjustedShares).toOption.isSome = true) :
    l.Rederivable id security := by
  intro l₁ hresecured hsame key lot hlot _
  obtain ⟨hwalked, hwalkedLots⟩ := hs.resecured_secured haligned id security
  obtain rfl := hwalked.unique hresecured (hwalkedLots.trans hsame.symm)
  obtain rfl : lot.key = key := key_of_lot hlot
  obtain ⟨p, hp⟩ := Option.isSome_iff_exists.mp (h lot (Register.mem_items_iff.mpr hlot))
  exact ⟨p, toOption_eq_some_iff.mp hp⟩

/-- Shares that are passed on twice, with a lot on the way, and a transfer without shares. -/
def passedOn : List Edit :=
  [.addSecurity "S", .addSecurity "R", .addTransaction ⟨7⟩ (.june 20) (some ⟨1⟩),
    .addEntry ⟨3⟩ none (some (.whole 9)) none, .addTransfer ⟨3⟩ ⟨8⟩ none (some (-.whole 4)),
    .addTransfer ⟨5⟩ ⟨9⟩ none (some (-.whole 2)), .addTransfer ⟨5⟩ ⟨6⟩ (some 1) none,
    .insertLot ⟨⟨4⟩, ⟨6⟩⟩, .setLotShares ⟨⟨4⟩, ⟨6⟩⟩ (.whole 4)]

theorem setSecurity_component_passedOn : ∃ (l l₁ : Ledger) (t : Transaction), l.Reachable ∧
    l.SharesAligned ∧ l.transaction? ⟨8⟩ = some t ∧ l.Rederivable ⟨8⟩ (some ⟨2⟩) ∧
      l.setSecurity ⟨8⟩ (some ⟨2⟩) =
        .ok ([(⟨8⟩, some ⟨1⟩), (⟨5⟩, some ⟨1⟩), (⟨3⟩, some ⟨1⟩)], l₁) ∧
      l.Resecured ⟨8⟩ (some ⟨2⟩) l₁ ∧ l.ShareLinked ⟨8⟩ ⟨3⟩ ∧ ¬ l.ShareLinked ⟨8⟩ ⟨11⟩ ∧
      l₁.SharesAligned := by
  have hcheck : (((Ledger.new .standard).performAll passedOn).toOption.any fun l =>
      (l.setSecurity ⟨8⟩ (some ⟨2⟩)).toOption.any fun r => (l.transaction? ⟨8⟩).any fun _ =>
        (Ledger.transaction? r.2 ⟨11⟩).any fun u => l.SharesAligned ∧ u.security = none ∧
          r.1 = [(⟨8⟩, some ⟨1⟩), (⟨5⟩, some ⟨1⟩), (⟨3⟩, some ⟨1⟩)] ∧
          ∀ lot ∈ l.lots.items, ((l.secured ⟨8⟩ (some ⟨2⟩)).2.lotPurchaseShares lot.key
            lot.adjustedShares).toOption.isSome = true) = true := by
    decide +kernel
  obtain ⟨l, hl, hcheck⟩ := exists_ok_of_any hcheck
  obtain ⟨⟨changes, l₁⟩, hset, hcheck⟩ := exists_ok_of_any hcheck
  obtain ⟨t, ht, hcheck⟩ := (Option.any_eq_true _ _).mp hcheck
  obtain ⟨u, hu, hcheck⟩ := (Option.any_eq_true _ _).mp hcheck
  obtain ⟨haligned, hnone, rfl, hlots⟩ := of_decide_eq_true hcheck
  have hreachable := (Reachable.new .standard).performAll hl
  have hrederivable := hreachable.sound.rederivable haligned hlots
  obtain ⟨changes, l₂, hset', hsets⟩ := (setSecurity_component hreachable haligned ht).1 hrederivable
  obtain ⟨rfl, rfl⟩ := Prod.mk.inj (Except.ok.inj (hset.symm.trans hset'))
  obtain ⟨-, -, -, -, hlinked⟩ := (hsets.mem_changes ⟨3⟩ (some ⟨1⟩)).mp (by simp)
  refine ⟨l, l₁, t, hreachable, haligned, ht, hrederivable, hset, hsets.resecured, hlinked, ?_,
    hsets.aligned⟩
  intro hlinked'
  obtain ⟨w, -, rfl⟩ :=
    Option.map_eq_some_iff.mp ((hsets.resecured.linked ⟨11⟩ hlinked').symm.trans hu)
  cases hnone

/-- A purchase and a sale with a lot of the smallest number of shares, and a second security that was
split three for one in between. -/
def tinyLot : List Edit :=
  [.addSecurity "S", .addSecurity "T", .addSplit ⟨2⟩ ⟨.june 20, ⟨.whole 3, 1⟩⟩,
    .addTransaction ⟨7⟩ (.june 19) (some ⟨1⟩), .addEntry ⟨3⟩ none (some 1) none,
    .addTransaction ⟨7⟩ (.june 21) (some ⟨1⟩), .addEntry ⟨5⟩ none (some (-1)) none,
    .insertLot ⟨⟨4⟩, ⟨6⟩⟩, .setLotShares ⟨⟨4⟩, ⟨6⟩⟩ (.oneIn 28)]

/-- A security may not be set although nothing is too large: the quotient of the smallest number by three
is nothing, which is not rounded up, and does not back the lot. -/
theorem exists_lot_not_rederived : ∃ (l : Ledger) (t : Transaction) (lot : Lot), l.Reachable ∧
    l.SharesAligned ∧ l.transaction? ⟨3⟩ = some t ∧ l.lots.items = [lot] ∧
      (l.secured ⟨3⟩ (some ⟨2⟩)).2.covering ((l.secured ⟨3⟩ (some ⟨2⟩)).2.lotContext lot.key)
        lot.adjustedShares = .ok 0 ∧
      l.setSecurity ⟨3⟩ (some ⟨2⟩) = .error (.arithmetic (.broken (.backing lot.key))) := by
  have hcheck : (((Ledger.new .standard).performAll tinyLot).toOption.any fun l =>
      (l.transaction? ⟨3⟩).any fun _ => (l.lot? ⟨⟨4⟩, ⟨6⟩⟩).any fun lot => l.SharesAligned ∧
        l.lots.items = [lot] ∧
        (l.secured ⟨3⟩ (some ⟨2⟩)).2.covering ((l.secured ⟨3⟩ (some ⟨2⟩)).2.lotContext lot.key)
          lot.adjustedShares = .ok 0 ∧
        l.setSecurity ⟨3⟩ (some ⟨2⟩) = .error (.arithmetic (.broken (.backing lot.key)))) = true := by
    decide +kernel
  obtain ⟨l, hl, hcheck⟩ := exists_ok_of_any hcheck
  obtain ⟨t, ht, hcheck⟩ := (Option.any_eq_true _ _).mp hcheck
  obtain ⟨lot, -, hcheck⟩ := (Option.any_eq_true _ _).mp hcheck
  obtain ⟨haligned, hlots, hcovering, hfault⟩ := of_decide_eq_true hcheck
  exact ⟨l, t, lot, (Reachable.new .standard).performAll hl, haligned, ht, hlots, hcovering, hfault⟩

end Lotbook.Ledger
