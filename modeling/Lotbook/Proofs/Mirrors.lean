/-
# Lotbook.Proofs.Mirrors -- the legs of a transfer mirror each other

A transfer is made with two legs, in two transactions, that refer to each other and carry opposite
amounts and shares. Entries never go over to another transaction and are never linked to another entry
(`Ledger.Operation.entry?`), so what is still a transfer was one from the start, and its legs stay apart
(`Ledger.Operation.apart`). What setting an amount or shares checks of its result therefore holds.
-/
import Lotbook.Proofs.Issuing

namespace Lotbook.Ledger

variable {l l₁ : Ledger} {edit : Edit}

/-- The legs of a transfer belong to different transactions. -/
def Apart (l : Ledger) : Prop :=
  ∀ id e other o, l.entry? id = some e → e.related = some other → l.entry? other = some o →
    o.transaction ≠ e.transaction

/-- What came in as a leg came in with a transfer, in another transaction than the other leg. -/
theorem addTransfer_apart (hs : l.Sound) {transaction : TransactionId} {otherAccount : AccountId}
    {amount quantity : Option Decimal} {legs : EntryId × EntryId}
    (h : l.addTransfer transaction otherAccount amount quantity = .ok (legs, l₁)) {id other : EntryId}
    {e₁ o₁ : Entry} (hnew : l.entry? id = none) (he₁ : l₁.entry? id = some e₁)
    (hother : e₁.related = some other) (ho₁ : l₁.entry? other = some o₁) :
    o₁.transaction ≠ e₁.transaction := by
  obtain ⟨t, _, _, e, o, ht, -, -, ⟨howner, hrelated, -⟩, ⟨howner', hrelated', -⟩, -, hentry⟩ :=
    addTransfer_lookUps hs.given h
  have hfresh : transaction ≠ ⟨l.issued + 1⟩ := hs.given.transaction_ne_next ht
  rw [hentry] at he₁
  split at he₁
  · obtain rfl := Option.some.inj he₁
    obtain rfl := Option.some.inj (hrelated'.symm.trans hother)
    obtain rfl : e = o₁ := by simpa [hentry] using ho₁
    rw [howner, howner']
    exact fun heq => hfresh (Option.some.inj heq)
  · split at he₁
    · obtain rfl := Option.some.inj he₁
      obtain rfl := Option.some.inj (hrelated.symm.trans hother)
      obtain rfl : o = o₁ := by simpa [hentry] using ho₁
      rw [howner, howner']
      exact fun heq => hfresh (Option.some.inj heq.symm)
    · cases hnew.symm.trans he₁

theorem Operation.apart (hs : l.Sound) (h : l.Apart) (hop : Operation l edit l₁) : l₁.Apart := by
  intro id e₁ other o₁ he₁ hother ho₁
  cases he : l.entry? id with
  | some e =>
    -- both legs were there before, linked to each other and with the same owners
    have hkeeps := hop.keepsEntry hs he he₁
    obtain ⟨-, o, ho, -⟩ := hs.paired id e other he (hkeeps.related other hother)
    have hkeeps' := hop.keepsEntry hs ho ho₁
    rw [hkeeps.transaction, hkeeps'.transaction]
    exact h id e other o he (hkeeps.related other hother) ho
  | none =>
    have hgiven : .entry id ∈ edit.given l :=
      (hop.entry_given hs he₁).resolve_left (by simp [he])
    cases hop with
    | addEntry hadd =>
      obtain ⟨-, -, rfl, rfl⟩ := addEntry_eq_ok hadd
      rw [entry?_attach] at he₁
      split at he₁
      · obtain rfl := Option.some.inj he₁
        cases hother
      · cases he.symm.trans he₁
    | addTransfer hadd => exact addTransfer_apart hs hadd he he₁ hother ho₁
    | _ => simp [Edit.given] at hgiven

theorem Reachable.apart (h : l.Reachable) : l.Apart :=
  h.reachableBy.keeps (fun _ _ _ _ _ he => by cases he) (fun _ _ _ => trivial)
    fun _ _ _ hs hapart _ hop => hop.apart hs hapart

/-! ## What the setters check -/

/-- Whether an entry and the other leg of its transfer, if there is one, carry opposite values: what
setting an amount or shares checks of the ledger that it leaves. -/
def isNegated (l : Ledger) (id : EntryId) : Bool :=
  match l.entry? id with
  | none => true
  | some e =>
      match e.related.bind l.entry? with
      | none => true
      | some o => o.amount = e.amount.map (-·) ∧ o.quantity = e.quantity.map (-·)

theorem Paired.isNegated (h : l.Paired) (id : EntryId) : l.isNegated id = true := by
  rw [Ledger.isNegated]
  split
  · rfl
  · rename_i e he
    split
    · rfl
    · rename_i o ho
      obtain ⟨other, hother, hlookup⟩ := Option.bind_eq_some_iff.mp ho
      obtain ⟨-, o', ho', -, hamount, hquantity⟩ := h id e other he hother
      obtain rfl := Option.some.inj (hlookup.symm.trans ho')
      simp [hamount, hquantity]

/-- What an operation leaves that also says something else is reached by the edit that does it. -/
theorem Reachable.of_settle {α : Type} (h : l.Reachable) (edit : Edit)
    {x : Except LedgerError (α × Ledger)} {said : α}
    (hperform : l.perform edit = .ok (settle l (Prod.snd <$> x))) (hx : x = .ok (said, l₁)) :
    l₁.Reachable := by
  rw [hx] at hperform
  exact h.edit hperform

/-- In every ledger that is reached, the legs of a transfer are two entries that refer to each other,
belong to different transactions and carry opposite amounts and shares, or neither of them; and what
setting an amount or shares checks of its result holds. -/
theorem legs_mirror (h : l.Reachable) :
    (∀ id e r, l.entry? id = some e → e.related = some r →
      r ≠ id ∧ ∃ o t t', l.entry? r = some o ∧ o.related = some id ∧
        e.transaction = some t ∧ o.transaction = some t' ∧ t ≠ t' ∧
        o.amount = e.amount.map (-·) ∧ o.quantity = e.quantity.map (-·)) ∧
      (∀ id amount previous l₁, l.setAmount id amount = .ok (previous, l₁) →
        l₁.isNegated id = true) ∧
      ∀ id quantity previous l₁, l.setQuantity id quantity = .ok (previous, l₁) →
        l₁.isNegated id = true := by
  refine ⟨fun id e r he hr => ?_, fun id _ _ _ hset => ?_, fun id _ _ _ hset => ?_⟩
  · obtain ⟨hne, o, ho, hback, hamount, hquantity⟩ := h.sound.paired id e r he hr
    obtain ⟨t, _, howner, -⟩ := h.sound.owned.owner id e he
    obtain ⟨t', _, howner', -⟩ := h.sound.owned.owner r o ho
    have hapart := h.apart id e r o he hr ho
    rw [howner, howner'] at hapart
    exact ⟨hne, o, t, t', ho, hback, howner, howner', fun heq => hapart (congrArg some heq.symm),
      hamount, hquantity⟩
  · have hreached := h.of_settle (.setAmount id _) rfl hset
    exact hreached.sound.paired.isNegated id
  · have hreached := h.of_settle (.setQuantity id _) rfl hset
    exact hreached.sound.paired.isNegated id

/-- A transfer of shares whose second leg is set to other values, between refused edits, beside one
that has lost a leg. -/
def setOnOtherLeg : List Edit :=
  [.addSecurity "S", .addTransaction ⟨7⟩ (.june 20) (some ⟨1⟩),
    .addTransfer ⟨2⟩ ⟨8⟩ (some 1) (some (-.whole 4)), .addTransfer ⟨3⟩ ⟨9⟩ none (some 1),
    .setQuantity ⟨99⟩ none, .setQuantity ⟨5⟩ (some (.whole 3)), .removeEntry ⟨8⟩]

theorem legs_mirror_setOnOtherLeg :
    ∃ (l l₁ : Ledger) (previous : Option Decimal), l.Reachable ∧
      (∃ e o, l.entry? ⟨5⟩ = some e ∧ e.related = some ⟨4⟩ ∧ e.quantity = some (.whole 3) ∧
        l.entry? ⟨4⟩ = some o ∧ o.quantity = some (-.whole 3)) ∧
      l.setAmount ⟨5⟩ none = .ok (previous, l₁) ∧ l₁.isNegated ⟨5⟩ = true := by
  have hcheck : (((Ledger.new .standard).performAll setOnOtherLeg).toOption.any fun l =>
      (l.setAmount ⟨5⟩ none).toOption.any fun _ => (l.entry? ⟨5⟩).any fun e =>
        e.related = some ⟨4⟩ ∧ e.quantity = some (.whole 3)) = true := by
    decide +kernel
  obtain ⟨l, hl, hcheck⟩ := exists_ok_of_any hcheck
  obtain ⟨⟨previous, l₁⟩, hset, hcheck⟩ := exists_ok_of_any hcheck
  obtain ⟨e, he, hcheck⟩ := (Option.any_eq_true _ _).mp hcheck
  obtain ⟨hrelated, hquantity⟩ := of_decide_eq_true hcheck
  have hreachable := (Reachable.new .standard).performAll hl
  obtain ⟨hmirror, hamounts, -⟩ := legs_mirror hreachable
  obtain ⟨-, o, _, _, ho, -, -, -, -, -, hopposite⟩ := hmirror ⟨5⟩ e ⟨4⟩ he hrelated
  rw [hquantity] at hopposite
  exact ⟨l, l₁, previous, hreachable, ⟨e, o, he, hrelated, hquantity, ho, hopposite⟩, hset,
    hamounts ⟨5⟩ none previous l₁ hset⟩

end Lotbook.Ledger
