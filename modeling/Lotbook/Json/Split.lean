/-
# Lotbook.Json.Split -- splits as JSON

Reading does not judge: ratios need not be positive and the splits of a security may stand in any
order. What a text holds is therefore a `SplitSheet`, and a split history is written through one.
-/
import Lotbook.Json.Form
import Lotbook.Split.History

namespace Lotbook

open Json (Form write read?)

instance : Form SplitRatio where
  write r := Json.objectChars [("sharesOut", write r.sharesOut), ("sharesIn", write r.sharesIn)]
  read? j := do
    let [sharesOut, sharesIn] ← Json.fields? ["sharesOut", "sharesIn"] j | none
    return ⟨← read? sharesOut, ← read? sharesIn⟩

instance : Form StockSplit where
  write s := Json.objectChars [("date", write s.date), ("ratio", write s.ratio)]
  read? j := do
    let [date, ratio] ← Json.fields? ["date", "ratio"] j | none
    return ⟨← read? date, ← read? ratio⟩

/-- The splits of a security as they stand in a text. -/
structure SplitSheet where
  security : SecurityId
  splits : List StockSplit
  deriving DecidableEq

instance : Form SplitSheet where
  write s := Json.objectChars [("securityId", write s.security), ("splits", write s.splits)]
  read? j := do
    let [security, splits] ← Json.fields? ["securityId", "splits"] j | none
    return ⟨← read? security, ← read? splits⟩

/-- The sheet of a split history. -/
def SplitHistory.sheet (h : SplitHistory) : SplitSheet := ⟨h.security, h.splits.items⟩

end Lotbook
