/-
# Lotbook.Proofs.Facts -- the fields that a session keeps track of

Of every entity a session follows a few fields: account, date and security of a transaction; owner,
amount, shares and category of an entry; both share counts of a lot; the ratio of a split. Of
securities and categories only whether they are there. The facts under a key are the values of these
fields, if there is an entity (`Ledger.facts?`).
-/
import Lotbook.Report.Notice

namespace Lotbook

/-! ## Fields and their values -/

def Transaction.facts (t : Transaction) : List FieldValue :=
  [.account t.account, .date t.date, .security t.security]

def Entry.facts (e : Entry) : List FieldValue :=
  [.transaction e.transaction, .amount e.amount, .quantity e.quantity, .category e.category]

def Lot.facts (lot : Lot) : List FieldValue :=
  [.purchaseShares lot.purchaseShares, .adjustedShares lot.adjustedShares]

def StockSplit.facts (split : StockSplit) : List FieldValue := [.ratio split.ratio]

/-- The values of the fields that a session keeps track of. -/
def Entity.facts : Entity → List FieldValue
  | .transaction t => t.facts
  | .entry e => e.facts
  | .lot l => l.facts
  | .stockSplit _ split => split.facts
  | .other _ => []

namespace EntityKey

/-- The fields that a session keeps track of, for the kind of entity that the key names. -/
def fields : EntityKey → List Field
  | .transaction _ => [.account, .date, .security]
  | .entry _ => [.transaction, .amount, .quantity, .category]
  | .lot _ => [.purchaseShares, .adjustedShares]
  | .stockSplit _ _ => [.ratio]
  | .security _ | .category _ | .account _ => []

theorem nodup_fields (key : EntityKey) : key.fields.Nodup := by
  cases key <;> simp [fields]

/-- Whether an entity that is gone can come back under the same key. -/
def Returns : EntityKey → Prop
  | .lot _ | .stockSplit _ _ => True
  | _ => False

/-- Whether the key has a number that was not given yet. -/
def IsNew (issued : Nat) : EntityKey → Prop
  | .transaction id => issued < id.number
  | .entry id => issued < id.number
  | .security id => issued < id.number
  | .category id => issued < id.number
  | _ => False

theorem IsNew.of_le {issued issued' : Nat} {key : EntityKey} (h : key.IsNew issued')
    (hle : issued ≤ issued') : key.IsNew issued := by
  cases key <;> simp only [IsNew] at h ⊢ <;> omega

end EntityKey

namespace Ledger

/-- The values of the fields of the entity under a key, if it is in the ledger. -/
def facts? (l : Ledger) : EntityKey → Option (List FieldValue)
  | .transaction id => (l.transaction? id).map Transaction.facts
  | .entry id => (l.entry? id).map Entry.facts
  | .lot key => (l.lot? key).map Lot.facts
  | .stockSplit s date => ((l.security? s).bind fun s => s.history.on? date).map StockSplit.facts
  | .security id => (l.security? id).map fun _ => []
  | .category id => (l.category? id).map fun _ => []
  | .account _ => none

theorem fields_of_facts? {l : Ledger} {key : EntityKey} {facts : List FieldValue}
    (h : l.facts? key = some facts) : facts.map FieldValue.field = key.fields := by
  cases key with
  | account id => cases h
  | transaction id | entry id | lot key | stockSplit s date | security id | category id =>
    obtain ⟨x, -, rfl⟩ := Option.map_eq_some_iff.mp h
    rfl

end Ledger

end Lotbook
