/-
# Lotbook.Proofs.Operations -- edits as operations that go through in one piece

Removing a transaction removes its entries first, and matching a sale makes, resizes and drops lots. An
edit of a ledger is thus some operations, one after the other, each of which goes through as a whole
(`Ledger.Operation`, `Ledger.Sound.perform_operations`). In a session the same edits come to the same
operations, deletion included (`Session.perform_operations`). What every operation keeps therefore
holds in every ledger that is reached, as long as the edits meet whatever condition the operations
need (`Ledger.ReachableBy.keeps`).

Operations are coarser than elementary changes: setting a date changes transactions and derives lots
again, and only both together keep what is said of lots. What can be said of every single change is
said there (`Ledger.Change`), and an operation is some changes (`Ledger.Operation.changed`).
-/
import Lotbook.Proofs.Soundness

namespace Lotbook

namespace Ledger

variable {l l₁ : Ledger} {allowed : Ledger → Edit → Prop} {edit : Edit}

/-! ## Operations -/

/--
An operation that goes through in one piece, with the edit that does just that. The edit names the
operation, so that a condition on edits can be asked of operations as well.
-/
inductive Operation : Ledger → Edit → Ledger → Prop
  | addSecurity (l : Ledger) (name : String) : Operation l (.addSecurity name) (l.addSecurity name).2
  | addCategory (l : Ledger) (code : String) (affectsBalance : Bool)
      (action : Option SecurityAction) : Operation l (.addCategory code affectsBalance action)
        (l.addCategory code affectsBalance action).2
  | addSplit {l l₁ : Ledger} {id : SecurityId} {split : StockSplit}
      (h : l.addSplit id split = .ok l₁) : Operation l (.addSplit id split) l₁
  | removeSplit {l l₁ : Ledger} {id : SecurityId} {date : Date} {removed : Option StockSplit}
      (h : l.removeSplit id date = .ok (removed, l₁)) : Operation l (.removeSplit id date) l₁
  | addTransaction (l : Ledger) (account : AccountId) (date : Date) (security : Option SecurityId) :
      Operation l (.addTransaction account date security) (l.addTransaction account date security).2
  | setAccount {l l₁ : Ledger} {id : TransactionId} {account previous : AccountId}
      (h : l.setAccount id account = .ok (previous, l₁)) : Operation l (.setAccount id account) l₁
  | setTransactionMemo {l l₁ : Ledger} {id : TransactionId} {memo previous : Option String}
      (h : l.setTransactionMemo id memo = .ok (previous, l₁)) :
      Operation l (.setTransactionMemo id memo) l₁
  | setDate {l l₁ : Ledger} {id : TransactionId} {date : Date} {changes : Changes Date}
      (h : l.setDate id date = .ok (changes, l₁)) : Operation l (.setDate id date) l₁
  | setSecurity {l l₁ : Ledger} {id : TransactionId} {security : Option SecurityId}
      {changes : Changes (Option SecurityId)} (h : l.setSecurity id security = .ok (changes, l₁)) :
      Operation l (.setSecurity id security) l₁
  /-- Removing a transaction comes last, after its entries. -/
  | dropTransaction {l : Ledger} {id : TransactionId}
      (h : ∀ entry e, l.entry? entry = some e → e.transaction ≠ some id) :
      Operation l (.removeTransaction id) { l with transactions := l.transactions.erase id }
  | addEntry {l l₁ : Ledger} {transaction : TransactionId} {amount quantity : Option Decimal}
      {category : Option CategoryId} {id : EntryId}
      (h : l.addEntry transaction amount quantity category = .ok (id, l₁)) :
      Operation l (.addEntry transaction amount quantity category) l₁
  | addTransfer {l l₁ : Ledger} {transaction : TransactionId} {otherAccount : AccountId}
      {amount quantity : Option Decimal} {legs : EntryId × EntryId}
      (h : l.addTransfer transaction otherAccount amount quantity = .ok (legs, l₁)) :
      Operation l (.addTransfer transaction otherAccount amount quantity) l₁
  | setAmount {l l₁ : Ledger} {id : EntryId} {amount previous : Option Decimal}
      (h : l.setAmount id amount = .ok (previous, l₁)) : Operation l (.setAmount id amount) l₁
  | setQuantity {l l₁ : Ledger} {id : EntryId} {quantity previous : Option Decimal}
      (h : l.setQuantity id quantity = .ok (previous, l₁)) : Operation l (.setQuantity id quantity) l₁
  | setCategory {l l₁ : Ledger} {id : EntryId} {category previous : Option CategoryId}
      (h : l.setCategory id category = .ok (previous, l₁)) : Operation l (.setCategory id category) l₁
  | setEntryMemo {l l₁ : Ledger} {id : EntryId} {memo previous : Option String}
      (h : l.setEntryMemo id memo = .ok (previous, l₁)) : Operation l (.setEntryMemo id memo) l₁
  | removeEntry {l l₁ : Ledger} {id : EntryId} {e : Entry} (h : l.removeEntry id = .ok (e, l₁)) :
      Operation l (.removeEntry id) l₁
  | insertLot {l l₁ : Ledger} {key : LotKey} (h : l.insertLot key = .ok l₁) :
      Operation l (.insertLot key) l₁
  | setLotShares {l l₁ : Ledger} {key : LotKey} {shares : Decimal}
      (h : l.setLotShares key shares = .ok l₁) : Operation l (.setLotShares key shares) l₁
  | removeLot {l l₁ : Ledger} {key : LotKey} {lot : Lot} (h : l.removeLot key = .ok (lot, l₁)) :
      Operation l (.removeLot key) l₁

/-- Whether an edit can be part of another one: of removing a transaction, or of matching a sale. A
condition that all of these meet is met by every operation of an edit that meets it. -/
def Edit.isPart : Edit → Bool
  | .removeTransaction _ | .removeEntry _ | .insertLot _ | .setLotShares .. | .removeLot _ => true
  | _ => false

/-- Whether an edit takes something out of a ledger. -/
def Edit.removes : Edit → Bool
  | .removeTransaction _ | .removeEntry _ | .removeLot _ => true
  | _ => false

theorem Edit.isPart_of_removes (h : edit.removes = true) : edit.isPart = true := by
  cases edit <;> first | rfl | cases h

/-- Whether an edit makes lots or gives them shares by itself, and not to match a sale. -/
def Edit.makesLots : Edit → Bool
  | .insertLot _ | .setLotShares .. | .allocateShares .. => true
  | _ => false

/-- Operations one after the other, each on a ledger on which its edit meets a condition. -/
abbrev Operations (allowed : Ledger → Edit → Prop) : Ledger → Ledger → Prop :=
  Relation.ReflTransGen fun l l₁ => ∃ edit, allowed l edit ∧ Operation l edit l₁

/-- An operation is some elementary changes. Those of dates, securities and splits are changes of what
lots depend on, followed by changes of lots. -/
theorem Operation.changed (h : Operation l edit l₁) : Changed l l₁ := by
  cases h with
  | addSecurity name => exact .single (.addSecurity l name)
  | addCategory code affectsBalance action =>
    exact .single (.addCategory l code affectsBalance action)
  | addSplit h =>
    obtain ⟨s, _, hs, -, rfl, hrederived⟩ := addSplit_eq_ok h
    exact hrederived.changed.head (.setHistory hs _)
  | removeSplit h =>
    obtain ⟨s, hs, -, ⟨-, rfl⟩ | ⟨-, _, rfl, hrederived⟩⟩ := removeSplit_eq_ok h
    · exact .refl
    · exact hrederived.changed.head (.setHistory hs _)
  | addTransaction account date security => exact .single (.addTransaction l account date security)
  | @setAccount _ _ account _ h =>
    obtain ⟨t, ht, -, rfl⟩ := setAccount_eq_ok h
    exact .single (.reviseTransaction ht account t.date t.security t.memo)
  | @setTransactionMemo _ _ memo _ h =>
    obtain ⟨t, ht, rfl⟩ := setTransactionMemo_eq_ok h
    exact .single (.reviseTransaction ht t.account t.date t.security memo)
  | setDate h =>
    obtain ⟨l₂, -, hspread, hrederived⟩ := setDate_eq_ok h
    exact hspread.changed.trans hrederived.changed
  | setSecurity h =>
    obtain ⟨l₂, -, hspread, hrederived⟩ := setSecurity_eq_ok h
    exact hspread.changed.trans hrederived.changed
  | dropTransaction h => exact .single (.dropTransaction h)
  | addEntry h => exact .single (.addEntry h)
  | addTransfer h => exact .single (.addTransfer h)
  | setAmount h => exact .single (.setAmount h)
  | setQuantity h => exact .single (.setQuantity h)
  | setCategory h => exact .single (.setCategory h)
  | setEntryMemo h => exact .single (.setEntryMemo h)
  | removeEntry h => exact .single (.removeEntry h)
  | insertLot h => exact .single (.insertLot h)
  | setLotShares h =>
    obtain ⟨lot, p, hlot, -, rfl⟩ := setLotShares_eq_ok h
    exact .single (.resizeLot (key_of_lot hlot ▸ hlot) p _)
  | removeLot h =>
    obtain ⟨-, rfl⟩ := removeLot_eq_ok h
    exact .single (.dropLot l _)

theorem Operations.changed (h : Operations allowed l l₁) : Changed l l₁ := by
  induction h with
  | refl => exact .refl
  | tail _ hstep ih =>
    obtain ⟨edit, -, hop⟩ := hstep
    exact ih.trans hop.changed

theorem Operations.sound (h : Operations allowed l l₁) (hs : l.Sound) : l₁.Sound :=
  h.changed.sound hs

/-- One allowed operation. -/
theorem Operation.single (h : Operation l edit l₁) (hallowed : allowed l edit) :
    Operations allowed l l₁ := .single ⟨edit, hallowed, h⟩

/-! ## Edits of a ledger -/

/-- Whether an edit is made of several operations. -/
def Edit.isCompound : Edit → Bool
  | .removeTransaction _ | .allocateShares .. | .allocateLots .. | .allocateByStrategy .. => true
  | _ => false

/--
Any other edit is an operation, or it is refused and leaves the ledger as it was. A case of the proof
only says which kind of result the edit has: none that can be refused, one that can (`settled`), or one
that can also end in a fault (`attempted`); and whether it gives something back (`pair`).
-/
theorem perform_single (hsingle : edit.isCompound = false) {refusal : Option Failure}
    (hedit : l.perform edit = .ok (refusal, l₁)) :
    refusal = none ∧ Operation l edit l₁ ∨ refusal.isSome ∧ l₁ = l := by
  have settled {x : Except LedgerError Ledger}
      (hx : Except.ok (ε := ArithmeticFault) (settle l x) = .ok (refusal, l₁))
      (hok : x = .ok l₁ → Operation l edit l₁) :
      refusal = none ∧ Operation l edit l₁ ∨ refusal.isSome ∧ l₁ = l := by
    rcases settle_eq_iff.mp (Except.ok.inj hx) with ⟨hx, hnone⟩ | ⟨_, -, rfl, hsame⟩
    · exact .inl ⟨hnone, hok hx⟩
    · exact .inr ⟨rfl, hsame⟩
  have attempted {x : Except Failure Ledger} (hx : attempt l x = .ok (refusal, l₁))
      (hok : x = .ok l₁ → Operation l edit l₁) :
      refusal = none ∧ Operation l edit l₁ ∨ refusal.isSome ∧ l₁ = l := by
    rcases attempt_eq_iff.mp hx with ⟨hx, hnone⟩ | ⟨_, -, -, rfl, hsame⟩
    · exact .inl ⟨hnone, hok hx⟩
    · exact .inr ⟨rfl, hsame⟩
  -- an operation that also says something else
  have pair {ε α : Type} {x : Except ε (α × Ledger)} (hx : Prod.snd <$> x = .ok l₁)
      (hok : ∀ a, x = .ok (a, l₁) → Operation l edit l₁) : Operation l edit l₁ := by
    obtain ⟨⟨a, _⟩, ha, rfl⟩ := map_eq_ok_iff.mp hx
    exact hok a ha
  cases edit with
  | addSecurity name =>
    obtain ⟨rfl, rfl⟩ := Prod.mk.inj (Except.ok.inj hedit)
    exact .inl ⟨rfl, .addSecurity l name⟩
  | addCategory code affectsBalance action =>
    obtain ⟨rfl, rfl⟩ := Prod.mk.inj (Except.ok.inj hedit)
    exact .inl ⟨rfl, .addCategory l code affectsBalance action⟩
  | addTransaction account date security =>
    obtain ⟨rfl, rfl⟩ := Prod.mk.inj (Except.ok.inj hedit)
    exact .inl ⟨rfl, .addTransaction l account date security⟩
  | addSplit id split => exact attempted hedit .addSplit
  | setLotShares key shares => exact attempted hedit .setLotShares
  | insertLot key => exact settled hedit .insertLot
  | removeSplit id date => exact attempted hedit fun hx => pair hx fun _ => .removeSplit
  | setAccount id account => exact settled hedit fun hx => pair hx fun _ => .setAccount
  | setTransactionMemo id memo => exact settled hedit fun hx => pair hx fun _ => .setTransactionMemo
  | setDate id date => exact attempted hedit fun hx => pair hx fun _ => .setDate
  | setSecurity id security => exact attempted hedit fun hx => pair hx fun _ => .setSecurity
  | addEntry transaction amount quantity category =>
    exact settled hedit fun hx => pair hx fun _ => .addEntry
  | addTransfer transaction otherAccount amount quantity =>
    exact settled hedit fun hx => pair hx fun _ => .addTransfer
  | setAmount id amount => exact settled hedit fun hx => pair hx fun _ => .setAmount
  | setQuantity id quantity => exact settled hedit fun hx => pair hx fun _ => .setQuantity
  | setCategory id category => exact settled hedit fun hx => pair hx fun _ => .setCategory
  | setEntryMemo id memo => exact settled hedit fun hx => pair hx fun _ => .setEntryMemo
  | removeEntry id => exact settled hedit fun hx => pair hx fun _ => .removeEntry
  | removeLot key => exact settled hedit fun hx => pair hx fun _ => .removeLot
  | _ => cases hsingle

/-- What an edit comes to: nothing, an operation, the removal of a transaction, an offer to a lot, or a
matching of a sale with candidates. -/
theorem perform_cases {refusal : Option Failure} (hedit : l.perform edit = .ok (refusal, l₁)) :
    l₁ = l ∨ Operation l edit l₁ ∨
      (∃ id t, edit = .removeTransaction id ∧ l.removeTransaction id = .ok (t, l₁)) ∨
      (∃ key demand rest, edit = .allocateShares key demand ∧
        l.allocateShares key demand = .ok (rest, l₁)) ∨
      ∃ sale candidates outcome, l.allocateLots sale candidates = .ok (outcome, l₁) := by
  cases hcompound : edit.isCompound with
  | false =>
    rcases perform_single hcompound hedit with ⟨-, hop⟩ | ⟨-, hsame⟩
    · exact .inr (.inl hop)
    · exact .inl hsame
  | true =>
    cases edit with
    | removeTransaction id =>
      rcases settle_cases hedit with hremove | hsame
      · obtain ⟨⟨t, _⟩, ht, rfl⟩ := map_eq_ok_iff.mp hremove
        exact .inr (.inr (.inl ⟨id, t, rfl, ht⟩))
      · exact .inl hsame
    | allocateShares key demand =>
      obtain ⟨⟨rest, _⟩, hgrow, heq⟩ := map_eq_ok_iff.mp hedit
      obtain ⟨-, rfl⟩ := Prod.mk.inj heq
      exact .inr (.inr (.inr (.inl ⟨key, demand, rest, rfl, hgrow⟩)))
    | allocateLots sale candidates =>
      obtain ⟨⟨outcome, l₂⟩, hmatch, heq⟩ := map_eq_ok_iff.mp hedit
      rw [← matchAftermath_snd heq]
      exact .inr (.inr (.inr (.inr ⟨sale, candidates, outcome, hmatch⟩)))
    | allocateByStrategy sale strategy =>
      obtain ⟨⟨outcome, l₂⟩, hmatch, heq⟩ := map_eq_ok_iff.mp hedit
      rw [← matchAftermath_snd heq]
      rcases allocateByStrategy_cases hmatch with
        ⟨e, -, hsame⟩ | ⟨t, security, purchases, sorted, -, -, -, -, hmatch⟩
      · exact .inl hsame
      · exact .inr (.inr (.inr (.inr ⟨sale, sorted, outcome, hmatch⟩)))
    | _ => cases hcompound

section Removal

variable (hremovals : ∀ l edit, Edit.removes edit → allowed l edit)

include hremovals

/-- Removing entries one after the other leaves none of them, and no others than before, each with the
owner that it had. The ledger does not have to be sound for this. -/
theorem removeEntries_operations {ids : List EntryId} (h : l.removeEntries ids = .ok l₁) :
    Operations allowed l l₁ ∧ ∀ i x, l₁.entry? i = some x →
      i ∉ ids ∧ ∃ y, l.entry? i = some y ∧ x.transaction = y.transaction := by
  induction ids generalizing l with
  | nil =>
    obtain rfl : l = l₁ := pure_eq_ok_iff.mp h
    exact ⟨.refl, fun i x hx => ⟨List.not_mem_nil, x, hx, rfl⟩⟩
  | cons id ids ih =>
    simp only [removeEntries, List.foldlM_cons, bind_eq_ok_iff, pure_eq_ok_iff] at h
    obtain ⟨l₂, ⟨⟨removed, l₃⟩, hremove, rfl⟩, h⟩ := h
    obtain ⟨hrest, hleft⟩ := ih h
    have hfirst := (Operation.removeEntry hremove).single (hremovals l (.removeEntry id) rfl)
    refine ⟨hfirst.trans hrest, fun i x hx => ?_⟩
    obtain ⟨hi, y, hy, hxy⟩ := hleft i x hx
    obtain ⟨e, -, -, -, hentry, -, -⟩ := removeEntry_eq_ok hremove
    -- what is left after the rest was left by the first removal: another entry, unlinked at most
    rw [hentry] at hy
    split at hy
    · cases hy
    · rename_i hne
      refine ⟨by simp [hne, hi], ?_⟩
      split at hy
      · obtain ⟨z, hz, rfl⟩ := Option.map_eq_some_iff.mp hy
        exact ⟨z, hz, hxy.trans (transaction_unlinked z id)⟩
      · exact ⟨y, hy, hxy⟩

/-- A transaction goes after its entries, when it owns none any more. Soundness is needed for that: an
entry that names the transaction was on its list, and all of the list was removed. -/
theorem Sound.removeTransaction_operations (h : l.Sound) {id : TransactionId} {t : Transaction}
    (hremove : l.removeTransaction id = .ok (t, l₁)) : Operations allowed l l₁ := by
  simp only [Ledger.removeTransaction, bind_eq_ok_iff, orError_eq_ok_iff, pure_eq_ok_iff] at hremove
  obtain ⟨t₀, ht₀, l₂, hentries, t', -, hremove⟩ := hremove
  obtain ⟨rfl, rfl⟩ := Prod.mk.inj hremove
  obtain ⟨hops, hleft⟩ := removeEntries_operations hremovals hentries
  have hfree : ∀ i e, l₂.entry? i = some e → e.transaction ≠ some id := by
    intro i e he howner
    obtain ⟨hi, y, hy, hey⟩ := hleft i e he
    obtain ⟨owner, t₁, hy', ht₁, hmem⟩ := h.owned.owner i y hy
    obtain rfl : id = owner := Option.some.inj (howner.symm.trans (hey.trans hy'))
    obtain rfl := Option.some.inj (ht₀.symm.trans ht₁)
    exact hi hmem
  exact hops.trans ((Operation.dropTransaction hfree).single (hremovals _ _ rfl))

end Removal

section Edits

variable (hparts : ∀ l edit, Edit.isPart edit → allowed l edit)

include hparts

/-- A lot grows by having its shares set: what it takes of a demand only decides on the shares. -/
theorem allocateShares_operations {key : LotKey} {demand rest : Decimal}
    (h : l.allocateShares key demand = .ok (rest, l₁)) : Operations allowed l l₁ := by
  rcases allocateShares_eq_ok h with ⟨-, -, rfl⟩ | ⟨g, hkept, -, rfl⟩
  · exact .refl
  · have hset : l.setLotShares key g.adjustedShares = .ok g.after := by
      have hderived : l.lotPurchaseShares g.lot.key g.adjustedShares = .ok g.purchaseShares := by
        rw [key_of_lot g.lot?_eq]
        exact hkept.derived
      simp only [setLotShares, resized, bind_eq_ok_iff, orError_eq_ok_iff, liftM_fault_eq_ok_iff,
        pure_eq_ok_iff]
      exact ⟨g.lot, g.lot?_eq, g.grown, ⟨g.purchaseShares, hderived, rfl⟩, rfl⟩
    exact (Operation.setLotShares hset).single (hparts _ _ rfl)

/-- Matching a sale makes lots, lets them grow and drops those that took nothing. -/
theorem coverDemand_operations {sale : EntryId} {demand : Decimal} {candidates : List EntryId}
    {outcome : Except LedgerError Allocation}
    (h : l.coverDemand sale demand candidates = .ok (outcome, l₁)) : Operations allowed l l₁ := by
  obtain ⟨-, hops⟩ := coverDemand_keeps (P := fun _ l₁ => Operations allowed l l₁)
    (fun _ _ _ _ hops hinsert =>
      hops.trans ((Operation.insertLot hinsert).single (hparts _ _ rfl)))
    (fun _ _ _ _ _ _ hops hgrow => hops.trans (allocateShares_operations hparts hgrow))
    (fun _ _ _ _ hops hlot =>
      hops.trans ((Operation.removeLot (removeLot_of_lot? hlot)).single (hparts _ _ rfl))) .refl h
  exact hops

/-- A sale without demand, or that cannot be found, is left as it is. -/
theorem allocateLots_operations {sale : EntryId} {candidates : List EntryId}
    {outcome : Except LedgerError Allocation}
    (h : l.allocateLots sale candidates = .ok (outcome, l₁)) : Operations allowed l l₁ := by
  rcases allocateLots_cases h with ⟨-, -, rfl⟩ | ⟨e, covered, uncovered, -, -, -, hcover⟩
  · exact .refl
  · exact coverDemand_operations hparts hcover

/-- Whatever an edit of a sound ledger does comes down to operations: to the one that it is, or to
those that it is made of. -/
theorem Sound.perform_operations (h : l.Sound) {refusal : Option Failure}
    (hallowed : allowed l edit) (hedit : l.perform edit = .ok (refusal, l₁)) :
    Operations allowed l l₁ := by
  rcases perform_cases hedit with rfl | hop | ⟨id, t, -, hremove⟩ | ⟨key, demand, rest, -, hgrow⟩ |
    ⟨sale, candidates, outcome, hmatch⟩
  · exact .refl
  · exact hop.single hallowed
  · exact h.removeTransaction_operations
      (fun l edit hremoves => hparts l edit (Edit.isPart_of_removes hremoves)) hremove
  · exact allocateShares_operations hparts hgrow
  · exact allocateLots_operations hparts hmatch

end Edits

/-- Unless an edit makes lots by itself, it matches a sale or comes down to operations that do not make
lots either. So what is kept by matching as a whole, and not by each lot that it makes, can be followed
through edits as well. -/
theorem Sound.perform_matching (hremovals : ∀ l edit, Edit.removes edit → allowed l edit) (h : l.Sound)
    {refusal : Option Failure} (hmakes : edit.makesLots = false) (hallowed : allowed l edit)
    (hedit : l.perform edit = .ok (refusal, l₁)) : Operations allowed l l₁ ∨
      ∃ sale candidates outcome, l.allocateLots sale candidates = .ok (outcome, l₁) := by
  rcases perform_cases hedit with rfl | hop | ⟨id, t, -, hremove⟩ | ⟨key, demand, rest, rfl, -⟩ |
    hmatch
  · exact .inl .refl
  · exact .inl (hop.single hallowed)
  · exact .inl (h.removeTransaction_operations hremovals hremove)
  · cases hmakes
  · exact .inr hmatch

/-- Whatever an edit of a sound ledger does comes down to elementary changes. -/
theorem Sound.perform_changed (h : l.Sound) {refusal : Option Failure}
    (hedit : l.perform edit = .ok (refusal, l₁)) : Changed l l₁ := by
  have hops : Operations (fun _ _ => True) l l₁ :=
    h.perform_operations (fun _ _ _ => trivial) trivial hedit
  exact hops.changed

end Ledger

/-! ## Edits in a session -/

namespace Session

variable {s s₁ : Session} {allowed : Ledger → Ledger.Edit → Prop}

/-- The edit of the ledger that an edit in a session carries out. Deletion does more than the edit that
it is given here: it takes the other legs of transfers along. -/
def Edit.direct (settings : Settings) : Edit → Ledger.Edit
  | .addSecurity name => .addSecurity name
  | .addCategory code affectsBalance action => .addCategory code affectsBalance action
  | .addSplit id split => .addSplit id split
  | .deleteSplit id date => .removeSplit id date
  | .addTransaction account date security => .addTransaction account date security
  | .setAccount id account => .setAccount id account
  | .setDate id date => .setDate id date
  | .setSecurity id security => .setSecurity id security
  | .deleteTransaction id => .removeTransaction id
  | .addEntry transaction amount quantity category => .addEntry transaction amount quantity category
  | .addTransfer transaction otherAccount amount quantity =>
      .addTransfer transaction otherAccount amount quantity
  | .setAmount id amount => .setAmount id amount
  | .setQuantity id quantity => .setQuantity id quantity
  | .setCategory id category => .setCategory id category
  | .deleteEntry id => .removeEntry id
  | .matchLots sale candidates => .allocateLots sale candidates
  | .matchByStrategy sale strategy =>
      .allocateByStrategy sale (strategy.getD settings.lotStrategy)
  | .deleteLot key => .removeLot key

/-- Whether an edit deletes a transaction or an entry. -/
def Edit.deletes : Edit → Bool
  | .deleteTransaction _ | .deleteEntry _ => true
  | _ => false

/-- What becomes of an edit that can be refused does not depend on what else is kept with the ledger. -/
theorem map_settle {σ τ : Type} (f : σ → τ) (before : σ) (x : Except LedgerError σ) :
    Prod.map id f (settle before x) = settle (f before) (f <$> x) := by
  cases x <;> rfl

theorem map_attempt {σ τ : Type} (f : σ → τ) (before : σ) (x : Except Failure σ) :
    Prod.map id f <$> attempt before x = attempt (f before) (f <$> x) := by
  rcases x with (_ | _ | _) | _ <;> rfl

/--
What an edit in a session does to the ledger and whether it is refused is the same as for the ledger by
itself, unless the edit deletes what is linked as well.

A session makes the edit of the ledger and then writes its journal. The journal is not looked at before
that, so once the result of the edit is told apart (refused, a fault, or a ledger) both sides compute to
the same; `settled` and `attempted` take the refusals off first. Two cases need more than that: a split
that is not there, where the session does not even take the ledger that it is given back, and matching,
where a refused edit leaves a changed ledger.
-/
theorem perform_direct (s : Session) {edit : Edit} (hedit : edit.deletes = false) :
    Prod.map id ledger <$> s.perform edit =
      s.ledger.perform (edit.direct s.ledger.settings) := by
  have settled {x : Except LedgerError Session} {y : Except LedgerError Ledger}
      (h : ledger <$> x = y) : Prod.map id ledger <$>
        (Except.ok (settle s x) : Except ArithmeticFault (Aftermath Session)) =
          .ok (settle s.ledger y) := by
    rw [← h, ← map_settle]
    rfl
  have attempted {x : Except Failure Session} {y : Except Failure Ledger}
      (h : ledger <$> x = y) : Prod.map id ledger <$> attempt s x = attempt s.ledger y := by
    rw [← h, map_attempt]
  cases edit with
  | addSecurity | addCategory | addTransaction => rfl
  | addSplit id split =>
    refine attempted ?_
    rw [addSplit]
    cases s.ledger.addSplit id split <;> rfl
  | deleteSplit id date =>
    refine attempted ?_
    rw [deleteSplit]
    cases hremove : s.ledger.removeSplit id date with
    | error e => rfl
    | ok r =>
      obtain ⟨_ | split, l₁⟩ := r
      · -- without a split on that day the ledger stays as it is
        obtain ⟨_, -, -, ⟨-, rfl⟩ | ⟨⟨_, hsplit⟩, -⟩⟩ := Ledger.removeSplit_eq_ok hremove
        · rfl
        · cases hsplit
      · rfl
  | setAccount id account =>
    refine settled ?_
    rw [setAccount]
    cases s.ledger.setAccount id account <;> rfl
  | setDate id date =>
    refine attempted ?_
    rw [setDate]
    cases s.ledger.setDate id date <;> rfl
  | setSecurity id security =>
    refine attempted ?_
    rw [setSecurity]
    cases s.ledger.setSecurity id security <;> rfl
  | deleteTransaction id => cases hedit
  | addEntry transaction amount quantity category =>
    refine settled ?_
    rw [addEntry]
    cases s.ledger.addEntry transaction amount quantity category <;> rfl
  | addTransfer transaction otherAccount amount quantity =>
    refine settled ?_
    rw [addTransfer]
    cases s.ledger.addTransfer transaction otherAccount amount quantity <;> rfl
  | setAmount id amount =>
    refine settled ?_
    rw [setAmount]
    cases s.ledger.setAmount id amount <;> rfl
  | setQuantity id quantity =>
    refine settled ?_
    rw [setQuantity]
    cases s.ledger.setQuantity id quantity <;> rfl
  | setCategory id category =>
    refine settled ?_
    rw [setCategory]
    cases s.ledger.setCategory id category <;> rfl
  | deleteEntry id => cases hedit
  | matchLots sale candidates =>
    -- a refused matching keeps the lots that it made, in the session as in the ledger
    show _ <$> matchAftermath <$> s.matchLots sale candidates = matchAftermath <$> _
    rw [matchLots]
    cases s.ledger.allocateLots sale candidates with
    | error fault => rfl
    | ok outcome => rcases outcome with ⟨_ | _, _⟩ <;> rfl
  | matchByStrategy sale strategy =>
    show _ <$> matchAftermath <$> s.matchByStrategy sale strategy = matchAftermath <$> _
    rw [matchByStrategy]
    cases s.ledger.allocateByStrategy sale (strategy.getD s.ledger.settings.lotStrategy) with
    | error fault => rfl
    | ok outcome => rcases outcome with ⟨_ | _, _⟩ <;> rfl
  | deleteLot key =>
    refine settled ?_
    rw [deleteLot]
    cases s.ledger.removeLot key <;> rfl

theorem perform_direct_of_ok {edit : Edit} {refusal : Option Failure} (hdeletes : edit.deletes = false)
    (hedit : s.perform edit = .ok (refusal, s₁)) :
    s.ledger.perform (edit.direct s.ledger.settings) = .ok (refusal, s₁.ledger) := by
  rw [← perform_direct s hdeletes, hedit]
  rfl

section Deletion

variable (hremovals : ∀ l edit, Ledger.Edit.removes edit → allowed l edit)

include hremovals

/-- The parts of a deletion, in the order in which one is made of the other: a lot, an entry with its
lots, a transaction, an entry with its other leg, a transaction with its entries. -/
theorem deleteLot_operations {key : LotKey} (h : s.deleteLot key = .ok s₁) :
    Ledger.Operations allowed s.ledger s₁.ledger := by
  simp only [deleteLot, bind_eq_ok_iff, pure_eq_ok_iff, Prod.exists] at h
  obtain ⟨lot, l₁, hremove, rfl⟩ := h
  exact (Ledger.Operation.removeLot hremove).single (hremovals _ _ rfl)

/-- An entry goes after its lots. -/
theorem removeEntry_operations {id : EntryId} (h : s.removeEntry id = .ok s₁) :
    Ledger.Operations allowed s.ledger s₁.ledger := by
  simp only [removeEntry, bind_eq_ok_iff, pure_eq_ok_iff, Prod.exists] at h
  obtain ⟨s₂, hlots, e, l₁, hremove, rfl⟩ := h
  have hdropped : Ledger.Operations allowed s.ledger s₂.ledger :=
    foldlM_keeps (P := fun s₁ => Ledger.Operations allowed s.ledger s₁.ledger)
      (fun _ _ _ _ hbefore hdelete => hbefore.trans (deleteLot_operations hremovals hdelete)) .refl hlots
  exact hdropped.trans ((Ledger.Operation.removeEntry hremove).single (hremovals _ _ rfl))

theorem removeTransaction_operations (hs : s.ledger.Sound) {id : TransactionId}
    (h : s.removeTransaction id = .ok s₁) : Ledger.Operations allowed s.ledger s₁.ledger := by
  simp only [removeTransaction, bind_eq_ok_iff, pure_eq_ok_iff, Prod.exists] at h
  obtain ⟨t, l₁, hremove, rfl⟩ := h
  exact hs.removeTransaction_operations hremovals hremove

/-- The other leg of a transfer goes after the entry, and then the transaction of that leg. -/
theorem deleteEntry_operations (hs : s.ledger.Sound) {id : EntryId} (h : s.deleteEntry id = .ok s₁) :
    Ledger.Operations allowed s.ledger s₁.ledger := by
  simp only [deleteEntry, bind_eq_ok_iff] at h
  obtain ⟨e, -, s₂, hremove, h⟩ := h
  have hfirst := removeEntry_operations hremovals hremove
  split at h
  · obtain rfl : s₂ = s₁ := pure_eq_ok_iff.mp h
    exact hfirst
  · rw [bind_eq_ok_iff] at h
    obtain ⟨s₃, hremove', h⟩ := h
    have hboth := hfirst.trans (removeEntry_operations hremovals hremove')
    split at h
    · obtain rfl : s₃ = s₁ := pure_eq_ok_iff.mp h
      exact hboth
    · split at h
      · exact hboth.trans (removeTransaction_operations hremovals (Ledger.Operations.sound hboth hs) h)
      · obtain rfl : s₃ = s₁ := pure_eq_ok_iff.mp h
        exact hboth

/-- A transaction goes after its entries, each of which takes its other leg along. The ledger is sound at
each of them, since operations keep it so. -/
theorem deleteTransaction_operations (hs : s.ledger.Sound) {id : TransactionId}
    (h : s.deleteTransaction id = .ok s₁) : Ledger.Operations allowed s.ledger s₁.ledger := by
  simp only [deleteTransaction, bind_eq_ok_iff] at h
  obtain ⟨t, -, s₂, hentries, h⟩ := h
  have hdeleted : Ledger.Operations allowed s.ledger s₂.ledger := by
    refine foldlM_keeps (P := fun s₁ => Ledger.Operations allowed s.ledger s₁.ledger)
      (fun s₃ i s₄ _ hbefore hstep => ?_) .refl hentries
    split at hstep
    · exact hbefore.trans (deleteEntry_operations hremovals (hbefore.sound hs) hstep)
    · obtain rfl : s₃ = s₄ := pure_eq_ok_iff.mp hstep
      exact hbefore
  split at h
  · exact hdeleted.trans (removeTransaction_operations hremovals (hdeleted.sound hs) h)
  · obtain rfl : s₂ = s₁ := pure_eq_ok_iff.mp h
    exact hdeleted

/-- An edit that deletes comes down to operations that take something out. -/
theorem perform_operations_of_deletes (hs : s.ledger.Sound) {edit : Edit} {refusal : Option Failure}
    (hdeletes : edit.deletes = true) (hedit : s.perform edit = .ok (refusal, s₁)) :
    Ledger.Operations allowed s.ledger s₁.ledger := by
  cases edit with
  | deleteTransaction id =>
    rcases settle_cases hedit with hdelete | rfl
    · exact deleteTransaction_operations hremovals hs hdelete
    · exact .refl
  | deleteEntry id =>
    rcases settle_cases hedit with hdelete | rfl
    · exact deleteEntry_operations hremovals hs hdelete
    · exact .refl
  | _ => cases hdeletes

end Deletion

/-- Whatever an edit in a session does to a sound ledger comes down to operations. -/
theorem perform_operations (hparts : ∀ l edit, Ledger.Edit.isPart edit → allowed l edit)
    (hs : s.ledger.Sound) {edit : Edit} {refusal : Option Failure}
    (hallowed : allowed s.ledger (edit.direct s.ledger.settings))
    (hedit : s.perform edit = .ok (refusal, s₁)) :
    Ledger.Operations allowed s.ledger s₁.ledger := by
  cases hdeletes : edit.deletes with
  | false => exact hs.perform_operations hparts hallowed (perform_direct_of_ok hdeletes hedit)
  | true =>
    exact perform_operations_of_deletes
      (fun l edit hremoves => hparts l edit (Ledger.Edit.isPart_of_removes hremoves)) hs hdeletes hedit

/-- The same of edits in a session. -/
theorem perform_matching (hremovals : ∀ l edit, Ledger.Edit.removes edit → allowed l edit)
    (hs : s.ledger.Sound) {edit : Edit} {refusal : Option Failure}
    (hmakes : (edit.direct s.ledger.settings).makesLots = false)
    (hallowed : allowed s.ledger (edit.direct s.ledger.settings))
    (hedit : s.perform edit = .ok (refusal, s₁)) : Ledger.Operations allowed s.ledger s₁.ledger ∨
      ∃ sale candidates outcome, s.ledger.allocateLots sale candidates = .ok (outcome, s₁.ledger) := by
  cases hdeletes : edit.deletes with
  | false => exact hs.perform_matching hremovals hmakes hallowed (perform_direct_of_ok hdeletes hedit)
  | true => exact .inl (perform_operations_of_deletes hremovals hs hdeletes hedit)

end Session

/-! ## Ledgers that are reached under a condition -/

namespace Ledger

variable {allowed : Ledger → Edit → Prop} {l : Ledger}

/-- The ledgers that come of edits that meet a condition on the ledger that they are made on; an edit
in a session counts as the edit that it carries out. Refused edits count too: a matching that is refused
may leave lots behind. -/
inductive ReachableBy (allowed : Ledger → Edit → Prop) : Ledger → Prop
  | new (settings : Settings) : ReachableBy allowed (.new settings)
  | edit {l l' : Ledger} {edit : Edit} {refusal : Option Failure} (h : ReachableBy allowed l)
      (hallowed : allowed l edit) (hedit : l.perform edit = .ok (refusal, l')) :
      ReachableBy allowed l'
  | session {s s' : Session} {edit : Session.Edit} {refusal : Option Failure}
      (h : ReachableBy allowed s.ledger)
      (hallowed : allowed s.ledger (edit.direct s.ledger.settings))
      (hedit : s.perform edit = .ok (refusal, s')) : ReachableBy allowed s'.ledger

/-- A condition only leaves fewer ledgers to be reached. -/
theorem ReachableBy.reachable (h : l.ReachableBy allowed) : l.Reachable := by
  induction h with
  | new settings => exact .new settings
  | edit _ _ hedit ih => exact .edit ih hedit
  | session _ _ hedit ih => exact .session ih hedit

theorem Reachable.reachableBy (h : l.Reachable) : l.ReachableBy fun _ _ => True := by
  induction h with
  | new settings => exact .new settings
  | edit _ hedit ih => exact .edit ih trivial hedit
  | session _ hedit ih => exact .session ih trivial hedit

theorem ReachableBy.mono {allowed' : Ledger → Edit → Prop} (h : l.ReachableBy allowed)
    (hmono : ∀ l edit, allowed l edit → allowed' l edit) : l.ReachableBy allowed' := by
  induction h with
  | new settings => exact .new settings
  | edit _ hallowed hedit ih => exact .edit ih (hmono _ _ hallowed) hedit
  | session _ hallowed hedit ih => exact .session ih (hmono _ _ hallowed) hedit

/-- The ledgers all of whose lots come of matching sales. -/
abbrev ReachedByMatching (l : Ledger) : Prop := l.ReachableBy fun _ edit => edit.makesLots = false

/-- What operations keep, one after the other. -/
theorem Operations.keeps {P : Ledger → Prop}
    (hstep : ∀ l edit l₁, l.Sound → P l → allowed l edit → Operation l edit l₁ → P l₁) {l₁ : Ledger}
    (hl : l.Sound ∧ P l) (hops : Operations allowed l l₁) : l₁.Sound ∧ P l₁ := by
  induction hops with
  | refl => exact hl
  | tail _ hlast ih =>
    obtain ⟨edit, hallowed, hop⟩ := hlast
    exact ⟨hop.changed.sound ih.1, hstep _ edit _ ih.1 ih.2 hallowed hop⟩

/-- What every allowed operation on a sound ledger keeps holds in every ledger that is reached. The
induction carries soundness along, since an edit is only known to come down to operations where the
ledger is sound. -/
theorem ReachableBy.keeps {P : Ledger → Prop} (hnew : ∀ settings, P (.new settings))
    (hparts : ∀ l edit, Edit.isPart edit → allowed l edit)
    (hstep : ∀ l edit l₁, l.Sound → P l → allowed l edit → Operation l edit l₁ → P l₁)
    (h : l.ReachableBy allowed) : P l := by
  suffices hboth : l.Sound ∧ P l from hboth.2
  induction h with
  | new settings => exact ⟨sound_new settings, hnew settings⟩
  | edit _ hallowed hedit ih =>
    exact Operations.keeps hstep ih (ih.1.perform_operations hparts hallowed hedit)
  | session _ hallowed hedit ih =>
    exact Operations.keeps hstep ih (Session.perform_operations hparts ih.1 hallowed hedit)

/-- If lots are made by matching only, what matching keeps and all operations keep that do not make
lots holds in every ledger that is reached. -/
theorem ReachableBy.keeps_matching {P : Ledger → Prop} (hnew : ∀ settings, P (.new settings))
    (hmakes : ∀ l edit, allowed l edit → edit.makesLots = false)
    (hremovals : ∀ l edit, Edit.removes edit → allowed l edit)
    (hstep : ∀ l edit l₁, l.Sound → P l → allowed l edit → Operation l edit l₁ → P l₁)
    (hmatch : ∀ l l₁ sale candidates outcome, l.Sound → P l →
      l.allocateLots sale candidates = .ok (outcome, l₁) → P l₁)
    (h : l.ReachableBy allowed) : P l := by
  have matched {l l₁ : Ledger} (hl : l.Sound ∧ P l) (h : Operations allowed l l₁ ∨
      ∃ sale candidates outcome, l.allocateLots sale candidates = .ok (outcome, l₁)) :
      l₁.Sound ∧ P l₁ := by
    rcases h with hops | ⟨sale, candidates, outcome, hmatching⟩
    · exact hops.keeps hstep hl
    · exact ⟨(allocateLots_matched hmatching).changed.sound hl.1,
        hmatch l l₁ sale candidates outcome hl.1 hl.2 hmatching⟩
  suffices hboth : l.Sound ∧ P l from hboth.2
  induction h with
  | new settings => exact ⟨sound_new settings, hnew settings⟩
  | edit _ hallowed hedit ih =>
    exact matched ih (ih.1.perform_matching hremovals (hmakes _ _ hallowed) hallowed hedit)
  | session _ hallowed hedit ih =>
    exact matched ih
      (Session.perform_matching hremovals ih.1 (hmakes _ _ hallowed) hallowed hedit)

end Ledger

end Lotbook
