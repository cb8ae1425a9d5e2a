/-
# Lotbook.Lots.Lot -- shares of a purchase consumed by a sale

A lot counts the same shares twice: as of the purchase date, before any splits, and as of the sale
date, after them. `Allocation` is what matching one sale against purchases comes to.
-/
import Lotbook.Decimal.Basic
import Lotbook.Identity
import Lotbook.Register

namespace Lotbook

/-- Shares of one purchase consumed by one sale. -/
structure Lot where
  purchase : EntryId
  sale : EntryId
  /-- The shares as of the purchase date. -/
  purchaseShares : Decimal
  /-- The same shares as of the sale date. -/
  adjustedShares : Decimal
  deriving DecidableEq

namespace Lot

/-- The pair of entries that the lot links. -/
def key (lot : Lot) : LotKey := ⟨lot.purchase, lot.sale⟩

instance : Keyed Lot LotKey := ⟨key⟩

/-- The lot of a pair before it holds any shares. -/
def empty (key : LotKey) : Lot := ⟨key.purchase, key.sale, 0, 0⟩

/-- Whether the lot holds no shares. -/
def isEmpty (lot : Lot) : Bool := lot.adjustedShares = 0

end Lot

/-- The outcome of matching one sale. -/
structure Allocation where
  /-- The lots that were made. -/
  created : List LotKey
  /-- The lots from before that received more shares. -/
  updated : List LotKey
  /-- The shares of the sale that no purchase covers, as of the sale date. -/
  unallocated : Decimal
  deriving DecidableEq

/-- Whether every share of the sale is covered. -/
def Allocation.isComplete (a : Allocation) : Bool := a.unallocated = 0

end Lotbook
