/-
# Lotbook.Proofs.Edits -- what can be done to a ledger, and which ledgers come of it

A ledger is changed by editing it directly, by matching sales, or in a session. Each edit says why it
was refused, if it was, and what it leaves behind; an arithmetic fault ends everything. A ledger is
reachable if edits lead to it from a ledger without entities (`Ledger.Reachable`), and a session runs
through any list of its edits, refused ones included (`Session.Run`).
-/
import Lotbook.Proofs.Outcome
import Lotbook.Session.Completion

namespace Lotbook

/-! ## Edits that may be refused -/

/-- Why an edit was refused, if it was, and the state that it leaves. -/
abbrev Aftermath (σ : Type) := Option Failure × σ

/-- A refused edit leaves the state as it was. -/
def settle {σ : Type} (before : σ) : Except LedgerError σ → Aftermath σ
  | .ok after => (none, after)
  | .error e => (some (.ledger e), before)

/-- A refused edit leaves the state as it was; a fault leaves none. -/
def attempt {σ : Type} (before : σ) : Except Failure σ → Except ArithmeticFault (Aftermath σ)
  | .ok after => .ok (none, after)
  | .error (.arithmetic fault) => .error fault
  | .error failure => .ok (some failure, before)

/-- Matching leaves the lots that it made before it was refused. -/
def matchAftermath {α σ : Type} : Except LedgerError α × σ → Aftermath σ
  | (.ok _, after) => (none, after)
  | (.error e, after) => (some (.ledger e), after)

/-! ## Editing a ledger -/

/-- An edit of a ledger, the growing of lots included. -/
inductive Ledger.Edit where
  | addSecurity (name : String)
  | addCategory (code : String) (affectsBalance : Bool) (action : Option SecurityAction)
  | addSplit (id : SecurityId) (split : StockSplit)
  | removeSplit (id : SecurityId) (date : Date)
  | addTransaction (account : AccountId) (date : Date) (security : Option SecurityId)
  | setAccount (id : TransactionId) (account : AccountId)
  | setTransactionMemo (id : TransactionId) (memo : Option String)
  | setDate (id : TransactionId) (date : Date)
  | setSecurity (id : TransactionId) (security : Option SecurityId)
  | removeTransaction (id : TransactionId)
  | addEntry (transaction : TransactionId) (amount quantity : Option Decimal)
      (category : Option CategoryId)
  | addTransfer (transaction : TransactionId) (otherAccount : AccountId)
      (amount quantity : Option Decimal)
  | setAmount (id : EntryId) (amount : Option Decimal)
  | setQuantity (id : EntryId) (quantity : Option Decimal)
  | setCategory (id : EntryId) (category : Option CategoryId)
  | setEntryMemo (id : EntryId) (memo : Option String)
  | removeEntry (id : EntryId)
  | insertLot (key : LotKey)
  | setLotShares (key : LotKey) (adjustedShares : Decimal)
  | removeLot (key : LotKey)
  | allocateShares (key : LotKey) (demand : Decimal)
  | allocateLots (sale : EntryId) (candidates : List EntryId)
  | allocateByStrategy (sale : EntryId) (strategy : LotStrategy)

/-- Carries out an edit of a ledger. -/
def Ledger.perform (l : Ledger) : Edit → Except ArithmeticFault (Aftermath Ledger)
  | .addSecurity name => .ok (none, (l.addSecurity name).2)
  | .addCategory code affectsBalance action =>
      .ok (none, (l.addCategory code affectsBalance action).2)
  | .addSplit id split => attempt l (l.addSplit id split)
  | .removeSplit id date => attempt l (Prod.snd <$> l.removeSplit id date)
  | .addTransaction account date security => .ok (none, (l.addTransaction account date security).2)
  | .setAccount id account => .ok (settle l (Prod.snd <$> l.setAccount id account))
  | .setTransactionMemo id memo => .ok (settle l (Prod.snd <$> l.setTransactionMemo id memo))
  | .setDate id date => attempt l (Prod.snd <$> l.setDate id date)
  | .setSecurity id security => attempt l (Prod.snd <$> l.setSecurity id security)
  | .removeTransaction id => .ok (settle l (Prod.snd <$> l.removeTransaction id))
  | .addEntry transaction amount quantity category =>
      .ok (settle l (Prod.snd <$> l.addEntry transaction amount quantity category))
  | .addTransfer transaction otherAccount amount quantity =>
      .ok (settle l (Prod.snd <$> l.addTransfer transaction otherAccount amount quantity))
  | .setAmount id amount => .ok (settle l (Prod.snd <$> l.setAmount id amount))
  | .setQuantity id quantity => .ok (settle l (Prod.snd <$> l.setQuantity id quantity))
  | .setCategory id category => .ok (settle l (Prod.snd <$> l.setCategory id category))
  | .setEntryMemo id memo => .ok (settle l (Prod.snd <$> l.setEntryMemo id memo))
  | .removeEntry id => .ok (settle l (Prod.snd <$> l.removeEntry id))
  | .insertLot key => .ok (settle l (l.insertLot key))
  | .setLotShares key adjustedShares => attempt l (l.setLotShares key adjustedShares)
  | .removeLot key => .ok (settle l (Prod.snd <$> l.removeLot key))
  | .allocateShares key demand => (fun r => (none, r.2)) <$> l.allocateShares key demand
  | .allocateLots sale candidates => matchAftermath <$> l.allocateLots sale candidates
  | .allocateByStrategy sale strategy => matchAftermath <$> l.allocateByStrategy sale strategy

/-! ## Editing in a session -/

/-- An edit in a session. -/
inductive Session.Edit where
  | addSecurity (name : String)
  | addCategory (code : String) (affectsBalance : Bool) (action : Option SecurityAction)
  | addSplit (id : SecurityId) (split : StockSplit)
  | deleteSplit (id : SecurityId) (date : Date)
  | addTransaction (account : AccountId) (date : Date) (security : Option SecurityId)
  | setAccount (id : TransactionId) (account : AccountId)
  | setDate (id : TransactionId) (date : Date)
  | setSecurity (id : TransactionId) (security : Option SecurityId)
  | deleteTransaction (id : TransactionId)
  | addEntry (transaction : TransactionId) (amount quantity : Option Decimal)
      (category : Option CategoryId)
  | addTransfer (transaction : TransactionId) (otherAccount : AccountId)
      (amount quantity : Option Decimal)
  | setAmount (id : EntryId) (amount : Option Decimal)
  | setQuantity (id : EntryId) (quantity : Option Decimal)
  | setCategory (id : EntryId) (category : Option CategoryId)
  | deleteEntry (id : EntryId)
  | matchLots (sale : EntryId) (candidates : List EntryId)
  | matchByStrategy (sale : EntryId) (strategy : Option LotStrategy)
  | deleteLot (key : LotKey)

/-- Carries out an edit in a session. -/
def Session.perform (s : Session) : Edit → Except ArithmeticFault (Aftermath Session)
  | .addSecurity name => .ok (none, (s.addSecurity name).2)
  | .addCategory code affectsBalance action =>
      .ok (none, (s.addCategory code affectsBalance action).2)
  | .addSplit id split => attempt s (s.addSplit id split)
  | .deleteSplit id date => attempt s (Prod.snd <$> s.deleteSplit id date)
  | .addTransaction account date security => .ok (none, (s.addTransaction account date security).2)
  | .setAccount id account => .ok (settle s (s.setAccount id account))
  | .setDate id date => attempt s (s.setDate id date)
  | .setSecurity id security => attempt s (s.setSecurity id security)
  | .deleteTransaction id => .ok (settle s (s.deleteTransaction id))
  | .addEntry transaction amount quantity category =>
      .ok (settle s (Prod.snd <$> s.addEntry transaction amount quantity category))
  | .addTransfer transaction otherAccount amount quantity =>
      .ok (settle s (Prod.snd <$> s.addTransfer transaction otherAccount amount quantity))
  | .setAmount id amount => .ok (settle s (s.setAmount id amount))
  | .setQuantity id quantity => .ok (settle s (s.setQuantity id quantity))
  | .setCategory id category => .ok (settle s (s.setCategory id category))
  | .deleteEntry id => .ok (settle s (s.deleteEntry id))
  | .matchLots sale candidates => matchAftermath <$> s.matchLots sale candidates
  | .matchByStrategy sale strategy => matchAftermath <$> s.matchByStrategy sale strategy
  | .deleteLot key => .ok (settle s (s.deleteLot key))

/-- A session that goes through edits in order, each of which meets a condition on the session that it
is made in; an edit that is refused is passed over. -/
inductive Session.Run (allowed : Session → Edit → Prop) : Session → List Edit → Session → Prop
  | done (s : Session) : Run allowed s [] s
  | step {s s₁ s₂ : Session} {edit : Edit} {edits : List Edit} {refusal : Option Failure}
      (hallowed : allowed s edit) (hedit : s.perform edit = .ok (refusal, s₁))
      (hrest : Run allowed s₁ edits s₂) : Run allowed s (edit :: edits) s₂

/-! ## Reachable ledgers -/

/-- The ledgers that come of any edits, made directly or in sessions, refused ones included. -/
inductive Ledger.Reachable : Ledger → Prop
  | new (settings : Settings) : Reachable (.new settings)
  | edit {l l' : Ledger} {edit : Edit} {refusal : Option Failure} (h : Reachable l)
      (hedit : l.perform edit = .ok (refusal, l')) : Reachable l'
  | session {s s' : Session} {edit : Session.Edit} {refusal : Option Failure}
      (h : Reachable s.ledger) (hedit : s.perform edit = .ok (refusal, s')) : Reachable s'.ledger

/-! ## Plain numbers and days -/

/-- A whole number of one byte. -/
def Decimal.whole (n : UInt8) : Decimal :=
  .ofMantissa n.toNat 0 (by have := n.toNat_lt; unfold maxMantissa; omega)

theorem Decimal.one_fits : (1 : Int).natAbs ≤ maxMantissa := by decide

/-- One in the last of so many places. -/
def Decimal.oneIn (places : Nat) : Decimal := .ofMantissa 1 places one_fits

/-- The first of June of a year of this century or the next two. -/
def Date.june (year : UInt8) : Date where
  year := 2000 + year.toNat
  month := 6
  day := 1
  valid := by
    have hyear := year.toNat_lt
    refine ⟨?_, by decide, by decide, by simp [daysIn]⟩
    unfold firstYear lastYear
    omega

/-! ## Edits in a row -/

/-- Goes on from a ledger by an edit, or from the same ledger if it is refused. -/
abbrev Ledger.advance (l : Ledger) (edit : Edit) : Except ArithmeticFault Ledger :=
  Prod.snd <$> l.perform edit

/-- Carries out edits of a ledger, passing over those that are refused. -/
def Ledger.performAll (l : Ledger) (edits : List Edit) : Except ArithmeticFault Ledger :=
  edits.foldlM advance l

/-- Carries out edits in a session, passing over those that are refused. -/
def Session.performAll (s : Session) (edits : List Edit) : Except ArithmeticFault Session :=
  edits.foldlM (fun s edit => Prod.snd <$> s.perform edit) s

theorem Ledger.Reachable.performAll {l l' : Ledger} (h : l.Reachable) {edits : List Edit}
    (hedits : l.performAll edits = .ok l') : l'.Reachable :=
  foldlM_keeps (fun _ _ _ _ h hstep => by
    obtain ⟨⟨refusal, _⟩, hperform, rfl⟩ := map_eq_ok_iff.mp hstep
    exact .edit h hperform) h hedits

theorem Session.Run.of_performAll {allowed : Session → Edit → Prop} {s s₁ : Session}
    {edits : List Edit} (hallowed : ∀ edit ∈ edits, ∀ s, allowed s edit)
    (h : s.performAll edits = .ok s₁) : Run allowed s edits s₁ := by
  induction edits generalizing s with
  | nil =>
    obtain rfl : s = s₁ := pure_eq_ok_iff.mp h
    exact .done s
  | cons edit edits ih =>
    rw [performAll, List.foldlM_cons, bind_eq_ok_iff] at h
    obtain ⟨s₂, hstep, hrest⟩ := h
    obtain ⟨⟨refusal, _⟩, hperform, rfl⟩ := map_eq_ok_iff.mp hstep
    exact .step (hallowed edit List.mem_cons_self s) hperform
      (ih (fun e he => hallowed e (List.mem_cons_of_mem edit he)) hrest)

/-! ## What an edit that was carried out came from -/

section Aftermath

variable {σ α : Type} {before after : σ} {refusal : Option Failure}

theorem settle_eq_iff {x : Except LedgerError σ} :
    settle before x = (refusal, after) ↔
      (x = .ok after ∧ refusal = none) ∨
        ∃ e, x = .error e ∧ refusal = some (.ledger e) ∧ after = before := by
  cases x with
  | ok a => simp [settle, eq_comm, and_comm]
  | error e => simp [settle, eq_comm]

/-- An edit either went through or left everything as it was. -/
theorem settle_cases {x : Except LedgerError σ}
    (h : Except.ok (ε := ArithmeticFault) (settle before x) = .ok (refusal, after)) :
    x = .ok after ∨ after = before := by
  rcases settle_eq_iff.mp (Except.ok.inj h) with ⟨hx, -⟩ | ⟨_, -, -, h⟩
  · exact .inl hx
  · exact .inr h

theorem attempt_eq_iff {x : Except Failure σ} :
    attempt before x = .ok (refusal, after) ↔
      (x = .ok after ∧ refusal = none) ∨
        ∃ failure, x = .error failure ∧ (∀ fault, failure ≠ .arithmetic fault) ∧
          refusal = some failure ∧ after = before := by
  match x with
  | .ok a => simp [attempt, eq_comm, and_comm]
  | .error (.arithmetic fault) => simp [attempt]
  | .error (.ledger e) => simp [attempt, eq_comm]
  | .error (.split e) => simp [attempt, eq_comm]

theorem attempt_cases {x : Except Failure σ} (h : attempt before x = .ok (refusal, after)) :
    x = .ok after ∨ after = before := by
  rcases attempt_eq_iff.mp h with ⟨hx, -⟩ | ⟨_, -, -, -, h⟩
  · exact .inl hx
  · exact .inr h

/-- An edit that was not refused went through. -/
theorem settle_eq_ok_none {x : Except LedgerError σ}
    (h : Except.ok (ε := ArithmeticFault) (settle before x) = .ok (none, after)) : x = .ok after := by
  rcases settle_eq_iff.mp (Except.ok.inj h) with ⟨hx, -⟩ | ⟨_, -, hrefused, -⟩
  · exact hx
  · cases hrefused

/-- An edit that was refused left everything as it was. -/
theorem eq_of_settle_refused {x : Except LedgerError σ} {failure : Failure}
    (h : Except.ok (ε := ArithmeticFault) (settle before x) = .ok (some failure, after)) :
    after = before := by
  rcases settle_eq_iff.mp (Except.ok.inj h) with ⟨-, hnone⟩ | ⟨_, -, -, hsame⟩
  · cases hnone
  · exact hsame

theorem eq_of_attempt_refused {x : Except Failure σ} {failure : Failure}
    (h : attempt before x = .ok (some failure, after)) : after = before := by
  rcases attempt_eq_iff.mp h with ⟨-, hnone⟩ | ⟨_, -, -, -, hsame⟩
  · cases hnone
  · exact hsame

theorem attempt_eq_ok_none {x : Except Failure σ} (h : attempt before x = .ok (none, after)) :
    x = .ok after := by
  rcases attempt_eq_iff.mp h with ⟨hx, -⟩ | ⟨_, -, -, hrefused, -⟩
  · exact hx
  · cases hrefused

/-- A matching leaves what it made, refused or not. -/
theorem matchAftermath_snd {x : Except LedgerError α × σ}
    (h : matchAftermath x = (refusal, after)) : x.2 = after := by
  obtain ⟨_ | _, _⟩ := x <;> exact (Prod.mk.inj h).2

end Aftermath

end Lotbook
