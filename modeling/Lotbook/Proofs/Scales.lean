/-
# Lotbook.Proofs.Scales -- the places that share counts are kept at

Share counts are rounded when they come in, to the places that the settings ask for, and nothing that is
done to a ledger later gives them more. The settings are never changed (`Ledger.Reachable.scaled`).
-/
import Lotbook.Proofs.Grids
import Lotbook.Proofs.Runs

namespace Lotbook.Ledger

open Decimal

/-- All share counts are kept at the places that the settings ask for. -/
structure Scaled (l : Ledger) : Prop where
  security : ∀ id s, l.security? id = some s → s.places = l.settings.sharePlaces
  entry : ∀ id e, l.entry? id = some e → e.quantityOrZero.OnGrid l.settings.sharePlaces

variable {l l₁ : Ledger}

/-- A security is kept at the places of a security before, or at those of the settings. -/
theorem Change.places (hchange : Change l l₁) {id : SecurityId} {s₁ : Security}
    (hs₁ : l₁.security? id = some s₁) :
    (∃ i s, l.security? i = some s ∧ s₁.places = s.places) ∨ s₁.places = l.settings.sharePlaces := by
  obtain hsame | ⟨name, rfl⟩ | ⟨i, s, history, hs, rfl⟩ := hchange.frame.securities
  · exact .inl ⟨id, s₁, (congrArg (Register.get? · id) hsame).symm.trans hs₁, rfl⟩
  · rw [security?_addSecurity] at hs₁
    split at hs₁
    · obtain rfl := Option.some.inj hs₁
      exact .inr rfl
    · exact .inl ⟨id, s₁, hs₁, rfl⟩
  · rw [security?_withHistory] at hs₁
    split at hs₁
    · obtain rfl := Option.some.inj hs₁
      exact .inl ⟨i, s, hs, rfl⟩
    · exact .inl ⟨id, s₁, hs₁, rfl⟩

/-- Whether a share count came out of rounding to the places of a transaction, or is the opposite of one
that did. -/
def IsRounded (l : Ledger) (quantity : Option Decimal) : Prop :=
  ∃ owner shares, quantity = l.roundShares owner shares ∨
    quantity = (l.roundShares owner shares).map (-·)

/-- An entry has the shares that it had before, or rounded ones. -/
theorem Change.quantity (h : l.Sound) (hchange : Change l l₁) {id : EntryId} {e₁ : Entry}
    (he₁ : l₁.entry? id = some e₁) :
    (∃ i e, l.entry? i = some e ∧ e₁.quantity = e.quantity) ∨ l.IsRounded e₁.quantity := by
  cases hchange with
  | addEntry hadd =>
    obtain ⟨-, -, -, rfl⟩ := addEntry_eq_ok hadd
    rw [entry?_attach] at he₁
    split at he₁
    · obtain rfl := Option.some.inj he₁
      exact .inr ⟨_, _, .inl rfl⟩
    · exact .inl ⟨id, e₁, he₁, rfl⟩
  | addTransfer hadd =>
    obtain ⟨t, q, other, e, o, -, hq, -, he, ho, -, rfl⟩ := addTransfer_eq_ok hadd
    rw [entry?_attach, entry?_attach] at he₁
    split at he₁
    · obtain rfl := Option.some.inj he₁
      exact .inr ⟨_, _, .inr (by rw [ho, hq])⟩
    · split at he₁
      · obtain rfl := Option.some.inj he₁
        exact .inr ⟨_, _, .inl (by rw [he, hq])⟩
      · exact .inl ⟨id, e₁, he₁, rfl⟩
  | setAmount hset =>
    obtain ⟨e, he, -, rfl⟩ := setAmount_eq_ok hset
    obtain ⟨x, hx, rfl | rfl | rfl⟩ :=
      h.paired.of_entry?_reviseLegs he he₁ (fun _ => rfl) fun _ => rfl
    all_goals exact .inl ⟨id, _, hx, rfl⟩
  | @setQuantity _ i quantity _ hset =>
    obtain ⟨e, he, -, rfl⟩ := setQuantity_eq_ok hset
    obtain ⟨owner, t, howner, -, -⟩ := h.owned.owner i e he
    have hstored : l.storedShares e quantity = l.roundShares owner quantity := by
      rw [storedShares, howner]
    obtain ⟨x, hx, rfl | rfl | rfl⟩ :=
      h.paired.of_entry?_reviseLegs he he₁ (fun _ => rfl) fun _ => rfl
    · exact .inl ⟨id, _, hx, rfl⟩
    · exact .inr ⟨owner, quantity, .inl hstored⟩
    · exact .inr ⟨owner, quantity, .inr (congrArg (Option.map (-·)) hstored)⟩
  | setCategory hset =>
    obtain ⟨-, e, he, -, rfl⟩ := setCategory_eq_ok hset
    obtain hx | ⟨hx, rfl⟩ := of_entry?_put he he₁ rfl
    all_goals exact .inl ⟨id, _, hx, rfl⟩
  | setEntryMemo hset =>
    obtain ⟨e, he, rfl⟩ := setEntryMemo_eq_ok hset
    obtain hx | ⟨hx, rfl⟩ := of_entry?_put he he₁ rfl
    all_goals exact .inl ⟨id, _, hx, rfl⟩
  | removeEntry hremove =>
    obtain ⟨-, y, hy, rfl⟩ := h.paired.of_entry?_removeEntry hremove he₁
    exact .inl ⟨id, y, hy, quantity_unlinked y _⟩
  | insertLot hinsert =>
    obtain ⟨-, -, -, rfl⟩ := insertLot_eq_ok hinsert
    exact .inl ⟨id, e₁, he₁, rfl⟩
  | addSecurity | addCategory | setHistory | addTransaction | reviseTransaction | dropTransaction
  | resizeLot | dropLot => exact .inl ⟨id, e₁, he₁, rfl⟩

/-! ## Whole runs -/

theorem Scaled.sharePlaces_eq (h : l.Scaled) (owner : TransactionId) :
    l.sharePlaces owner = l.settings.sharePlaces := by
  rw [sharePlaces]
  split
  · rename_i s hs
    obtain ⟨id, -, hid⟩ := Option.bind_eq_some_iff.mp hs
    exact h.security id s hid
  · rfl

theorem Scaled.onGrid_of_isRounded (h : l.Scaled) {quantity : Option Decimal}
    (hquantity : l.IsRounded quantity) : (quantity.getD 0).OnGrid l.settings.sharePlaces := by
  obtain ⟨owner, shares, hquantity⟩ := hquantity
  rw [← h.sharePlaces_eq owner]
  cases shares with
  | none =>
    rcases hquantity with rfl | rfl
    · exact onGrid_zero _
    · exact onGrid_zero _
  | some shares =>
    have hround : (shares.round (l.sharePlaces owner)).OnGrid (l.sharePlaces owner) :=
      onGrid_roundTo .halfEven _ shares
    rcases hquantity with rfl | rfl
    · exact hround
    · exact hround.neg

theorem scaled_new (settings : Settings) : (Ledger.new settings).Scaled where
  security _ _ h := by cases h
  entry _ _ h := by cases h

theorem Change.scaled (hsound : l.Sound) (h : l.Scaled) (hchange : Change l l₁) : l₁.Scaled where
  security id s hs := by
    rw [hchange.frame.settings]
    rcases hchange.places hs with ⟨i, s₀, hs₀, hsame⟩ | hplaces
    · exact hsame.trans (h.security i s₀ hs₀)
    · exact hplaces
  entry id e he := by
    rw [hchange.frame.settings]
    rcases hchange.quantity hsound he with ⟨i, e₀, he₀, hsame⟩ | hrounded
    · have hgrid := h.entry i e₀ he₀
      unfold Entry.quantityOrZero at hgrid ⊢
      rw [hsame]
      exact hgrid
    · exact h.onGrid_of_isRounded hrounded

theorem Changed.scaled (hsound : l.Sound) (h : l.Scaled) (hchanged : Changed l l₁) : l₁.Scaled := by
  induction hchanged with
  | refl => exact h
  | tail hbefore hchange ih => exact hchange.scaled (Changed.sound hsound hbefore) ih

/-- In every ledger that can be reached, shares have no more places than the settings ask for. -/
theorem Reachable.scaled (h : l.Reachable) : l.Scaled := by
  induction h with
  | new settings => exact scaled_new settings
  | edit hbefore hedit ih => exact (hbefore.sound.perform_changed hedit).scaled hbefore.sound ih
  | session hbefore hedit ih =>
    exact (Session.perform_changed hbefore.sound hedit).scaled hbefore.sound ih

end Lotbook.Ledger
