/-
# Lotbook.Identity -- the identities of the things a ledger holds

Accounts, transactions, entries, securities and categories are each known by a number; numbers of
different kinds cannot be mixed up. A lot is known by the purchase and the sale that it links.
-/
import Lotbook.Order
import Lotbook.Text.Digits

namespace Lotbook

/-- The kinds of things that are known by a number. -/
inductive IdentityKind where
  | account
  | transaction
  | entry
  | security
  | category
  deriving DecidableEq

/-- The number of one thing of a kind. -/
structure Identity (kind : IdentityKind) where
  number : Int
  deriving DecidableEq

/-- Accounts live outside the ledger; it only refers to them. -/
abbrev AccountId := Identity .account

abbrev TransactionId := Identity .transaction

/-- An entry is one line of a transaction. -/
abbrev EntryId := Identity .entry

abbrev SecurityId := Identity .security

abbrev CategoryId := Identity .category

namespace Identity

instance (kind : IdentityKind) : Ranked (Identity kind) where
  rank id := [id.number]
  rank_injective a b h := by
    cases a; cases b
    simpa using h

/-- The number as text. -/
def text {kind : IdentityKind} (id : Identity kind) : String :=
  String.ofList (Text.signedDigits id.number)

end Identity

/-- The purchase and the sale that a lot links. -/
structure LotKey where
  purchase : EntryId
  sale : EntryId
  deriving DecidableEq

namespace LotKey

instance : Ranked LotKey where
  rank key := [key.purchase.number, key.sale.number]
  rank_injective a b h := by
    obtain ⟨⟨_⟩, ⟨_⟩⟩ := a
    obtain ⟨⟨_⟩, ⟨_⟩⟩ := b
    simpa using h

/-- The purchase and the sale with an arrow between them. -/
def text (key : LotKey) : String := key.purchase.text ++ "->" ++ key.sale.text

end LotKey

end Lotbook
