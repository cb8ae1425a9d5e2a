/-
# Lotbook.Event -- what is reported about a ledger

An event names the entities of one kind that were added, changed or deleted, or says by how much the
balances of accounts and the share positions in them moved. Entities are named by keys, which are
ordered by kind first and by content second.
-/
import Lotbook.Date
import Lotbook.Decimal.Basic
import Lotbook.Identity
import Lotbook.Register
import Lotbook.Text.Named

namespace Lotbook

/-! ## Kinds and keys -/

/-- The kinds of entities that events speak of. -/
inductive EntityKind where
  | transaction
  | entry
  | lot
  | stockSplit
  | security
  | category
  | account
  deriving DecidableEq

namespace EntityKind

instance : Text.Named EntityKind where
  all := [.transaction, .entry, .lot, .stockSplit, .security, .category, .account]
  name
    | .transaction => "transaction"
    | .entry => "ledger_entry"
    | .lot => "lot"
    | .stockSplit => "stock_split"
    | .security => "security"
    | .category => "category"
    | .account => "account"

/-- The place of a kind among the kinds. -/
def index : EntityKind → Int
  | .transaction => 0
  | .entry => 1
  | .lot => 2
  | .stockSplit => 3
  | .security => 4
  | .category => 5
  | .account => 6

theorem index_injective : Function.Injective index := by
  intro a b h
  cases a <;> cases b <;> first | rfl | exact absurd h (by decide)

end EntityKind

/-- What happened to an entity. -/
inductive ChangeKind where
  | added
  | changed
  | deleted
  deriving DecidableEq

instance : Text.Named ChangeKind where
  all := [.added, .changed, .deleted]
  name
    | .added => "ADDED"
    | .changed => "CHANGED"
    | .deleted => "DELETED"

/-- The identity of an entity of any kind. -/
inductive EntityKey where
  | transaction (id : TransactionId)
  | entry (id : EntryId)
  | lot (key : LotKey)
  | stockSplit (security : SecurityId) (date : Date)
  | security (id : SecurityId)
  | category (id : CategoryId)
  | account (id : AccountId)
  deriving DecidableEq

namespace EntityKey

/-- The kind of entity that the key names. -/
def kind : EntityKey → EntityKind
  | .transaction _ => .transaction
  | .entry _ => .entry
  | .lot _ => .lot
  | .stockSplit _ _ => .stockSplit
  | .security _ => .security
  | .category _ => .category
  | .account _ => .account

/-- What distinguishes the key within its kind. -/
def content : EntityKey → List Int
  | .transaction id => rank id
  | .entry id => rank id
  | .lot key => rank key
  | .stockSplit s date => rank s ++ rank date
  | .security id => rank id
  | .category id => rank id
  | .account id => rank id

instance : Ranked EntityKey where
  rank key := key.kind.index :: key.content
  rank_injective a b h := by
    obtain ⟨hkind, hcontent⟩ := List.cons.inj h
    have hk := EntityKind.index_injective hkind
    cases a <;> cases b <;> simp only [kind, reduceCtorEq] at hk
    case stockSplit.stockSplit s d s' d' =>
      obtain ⟨hs, hd⟩ := List.append_inj hcontent rfl
      rw [rank_injective hs, rank_injective hd]
    all_goals exact congrArg _ (rank_injective hcontent)

instance : Keyed EntityKey EntityKey := ⟨id⟩

end EntityKey

/-! ## Events -/

/-- How the balance of an account moved, and how many transactions it gained. -/
structure AccountSummary where
  account : AccountId
  balanceDelta : Decimal
  countDelta : Int
  deriving DecidableEq

instance : Keyed AccountSummary AccountId := ⟨AccountSummary.account⟩

/-- How the shares of a security in an account moved, and how many transactions it gained. -/
structure PositionSummary where
  account : AccountId
  security : SecurityId
  shareDelta : Decimal
  countDelta : Int
  deriving DecidableEq

/-- A security in an account. -/
structure PositionKey where
  account : AccountId
  security : SecurityId
  deriving DecidableEq

instance : Ranked PositionKey where
  rank key := [key.account.number, key.security.number]
  rank_injective a b h := by
    obtain ⟨⟨_⟩, ⟨_⟩⟩ := a
    obtain ⟨⟨_⟩, ⟨_⟩⟩ := b
    simpa using h

instance : Keyed PositionSummary PositionKey := ⟨fun s => ⟨s.account, s.security⟩⟩

/-- Something that is reported about a ledger. -/
inductive Event where
  | entitiesChanged (entities : EntityKind) (kind : ChangeKind) (keys : List EntityKey)
  | accountSummariesChanged (summaries : List AccountSummary)
  | securitySummariesChanged (summaries : List PositionSummary)
  deriving DecidableEq

end Lotbook
