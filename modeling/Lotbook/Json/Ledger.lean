/-
# Lotbook.Json.Ledger -- the entities of a ledger as JSON

Absent values are written as null, and a missing field is read as one.
-/
import Lotbook.Json.Split
import Lotbook.Ledger.Entities
import Lotbook.Lots.Lot

namespace Lotbook

open Json (Form write read?)

instance : Form SecurityAction := Json.namedForm _

instance : Form Category where
  write c := Json.objectChars
    [("id", write c.id),
     ("code", write c.code),
     ("affectsBalance", write c.affectsBalance),
     ("securityAction", write c.action)]
  read? j := do
    let [id, code, affectsBalance, action] ←
      Json.fields? ["id", "code", "affectsBalance", "securityAction"] j | none
    return ⟨← read? id, ← read? code, ← read? affectsBalance, ← read? action⟩

/-- A security as it stands in a text. -/
structure SecuritySheet where
  id : SecurityId
  name : String
  places : Nat
  splits : SplitSheet
  deriving DecidableEq

instance : Form SecuritySheet where
  write s := Json.objectChars
    [("id", write s.id),
     ("name", write s.name),
     ("scale", Text.digits s.places),
     ("splits", write s.splits)]
  read? j := do
    let [id, name, places, splits] ← Json.fields? ["id", "name", "scale", "splits"] j | none
    return ⟨← read? id, ← read? name, ← Json.unsigned32? places, ← read? splits⟩

instance : Form Transaction where
  write t := Json.objectChars
    [("id", write t.id),
     ("account", write t.account),
     ("date", write t.date),
     ("security", write t.security),
     ("memo", write t.memo),
     ("details", write t.details)]
  read? j := do
    let [id, account, date, security, memo, details] ←
      Json.fields? ["id", "account", "date", "security", "memo", "details"] j | none
    return ⟨← read? id, ← read? account, ← read? date, ← read? security, ← read? memo,
      ← read? details⟩

instance : Form Entry where
  write e := Json.objectChars
    [("id", write e.id),
     ("transaction", write e.transaction),
     ("amount", write e.amount),
     ("assetQuantity", write e.quantity),
     ("category", write e.category),
     ("related", write e.related),
     ("memo", write e.memo)]
  read? j := do
    let [id, transaction, amount, quantity, category, related, memo] ←
      Json.fields?
        ["id", "transaction", "amount", "assetQuantity", "category", "related", "memo"] j | none
    return ⟨← read? id, ← read? transaction, ← read? amount, ← read? quantity, ← read? category,
      ← read? related, ← read? memo⟩

instance : Form LotKey where
  write k := Json.objectChars [("purchase", write k.purchase), ("sale", write k.sale)]
  read? j := do
    let [purchase, sale] ← Json.fields? ["purchase", "sale"] j | none
    return ⟨← read? purchase, ← read? sale⟩

instance : Form Lot where
  write l := Json.objectChars
    [("purchase", write l.purchase),
     ("sale", write l.sale),
     ("purchaseShares", write l.purchaseShares),
     ("adjustedShares", write l.adjustedShares)]
  read? j := do
    let [purchase, sale, purchaseShares, adjustedShares] ←
      Json.fields? ["purchase", "sale", "purchaseShares", "adjustedShares"] j | none
    return ⟨← read? purchase, ← read? sale, ← read? purchaseShares, ← read? adjustedShares⟩

end Lotbook
