/-
# Lotbook.Report.Field -- what a field held before

The previous values of an entity keep, for each field, the first value recorded for it: the one the
field had before any of the changes that are reported together. A field without a value is unknown,
which is not the same as a field that was empty.
-/
import Lotbook.Date
import Lotbook.Decimal.Basic
import Lotbook.Identity
import Lotbook.Split.Ratio
import Lotbook.Text.Named

namespace Lotbook

/-- The fields whose changes are reported. -/
inductive Field where
  | account
  | date
  | security
  | transaction
  | amount
  | quantity
  | category
  | related
  | memo
  | purchaseShares
  | adjustedShares
  | ratio
  deriving DecidableEq

instance : Text.Named Field where
  all := [.account, .date, .security, .transaction, .amount, .quantity, .category, .related, .memo,
    .purchaseShares, .adjustedShares, .ratio]
  name
    | .account => "account"
    | .date => "date"
    | .security => "security"
    | .transaction => "transaction"
    | .amount => "amount"
    | .quantity => "assetQuantity"
    | .category => "category"
    | .related => "related"
    | .memo => "memo"
    | .purchaseShares => "purchaseShares"
    | .adjustedShares => "adjustedShares"
    | .ratio => "ratio"

/-- A value that a field held. -/
inductive FieldValue where
  | account (value : AccountId)
  | date (value : Date)
  | security (value : Option SecurityId)
  | transaction (value : Option TransactionId)
  | amount (value : Option Decimal)
  | quantity (value : Option Decimal)
  | category (value : Option CategoryId)
  | related (value : Option EntryId)
  | memo (value : Option String)
  | purchaseShares (value : Decimal)
  | adjustedShares (value : Decimal)
  | ratio (value : SplitRatio)
  deriving DecidableEq

/-- The field that a value belongs to. -/
def FieldValue.field : FieldValue → Field
  | .account _ => .account
  | .date _ => .date
  | .security _ => .security
  | .transaction _ => .transaction
  | .amount _ => .amount
  | .quantity _ => .quantity
  | .category _ => .category
  | .related _ => .related
  | .memo _ => .memo
  | .purchaseShares _ => .purchaseShares
  | .adjustedShares _ => .adjustedShares
  | .ratio _ => .ratio

/-- The first value recorded for each field, in the order of recording. -/
structure Previous where
  values : List FieldValue
  deriving DecidableEq

namespace Previous

/-- No field is known. -/
def empty : Previous := ⟨[]⟩

instance : Inhabited Previous := ⟨empty⟩

/-- Records a value, unless there is one for its field. -/
def record (p : Previous) (value : FieldValue) : Previous :=
  if p.values.any fun known => known.field = value.field then p else ⟨p.values ++ [value]⟩

/-- Records values in order. -/
def recordAll (p : Previous) (values : List FieldValue) : Previous := values.foldl record p

/-- The fields that are known, in the order of recording. -/
def fields (p : Previous) : List Field := p.values.map FieldValue.field

/-! ## The value of a field, if it is known -/

/-- The account before. -/
def account? (p : Previous) : Option AccountId :=
  p.values.findSome? fun | .account v => some v | _ => none

/-- The date before. -/
def date? (p : Previous) : Option Date :=
  p.values.findSome? fun | .date v => some v | _ => none

/-- The security before; a known one may be none. -/
def security? (p : Previous) : Option (Option SecurityId) :=
  p.values.findSome? fun | .security v => some v | _ => none

/-- The amount before; a known one may be none. -/
def amount? (p : Previous) : Option (Option Decimal) :=
  p.values.findSome? fun | .amount v => some v | _ => none

/-- The number of shares before; a known one may be none. -/
def quantity? (p : Previous) : Option (Option Decimal) :=
  p.values.findSome? fun | .quantity v => some v | _ => none

/-- The category before; a known one may be none. -/
def category? (p : Previous) : Option (Option CategoryId) :=
  p.values.findSome? fun | .category v => some v | _ => none

/-- The shares as of the purchase date before. -/
def purchaseShares? (p : Previous) : Option Decimal :=
  p.values.findSome? fun | .purchaseShares v => some v | _ => none

/-- The shares as of the sale date before. -/
def adjustedShares? (p : Previous) : Option Decimal :=
  p.values.findSome? fun | .adjustedShares v => some v | _ => none

/-- The owning transaction before, if it is known and there was one. -/
def transaction? (p : Previous) : Option TransactionId :=
  p.values.findSome? fun | .transaction v => v | _ => none

/-! ## Laws -/

/-- A value recorded for a field that is already known changes nothing. -/
theorem record_of_mem {p : Previous} {value known : FieldValue} (hmem : known ∈ p.values)
    (hfield : known.field = value.field) : p.record value = p := by
  have : (p.values.any fun known => known.field = value.field) = true :=
    List.any_eq_true.mpr ⟨known, hmem, by simpa using hfield⟩
  simp only [record, this, if_true]

end Previous

end Lotbook
