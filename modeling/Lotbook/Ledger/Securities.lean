/-
# Lotbook.Ledger.Securities -- adding securities, splits and categories

Lots follow the splits under them.
-/
import Lotbook.Ledger.Lots

namespace Lotbook.Ledger

/-- Adds a security without splits; its share counts have the places that the settings ask for. -/
def addSecurity (l : Ledger) (name : String) : SecurityId × Ledger :=
  let (id, l) := l.issue .security
  (id, { l with securities := l.securities.put ⟨id, name, l.settings.sharePlaces, .new id⟩ })

/-- Adds a category. -/
def addCategory (l : Ledger) (code : String) (affectsBalance : Bool)
    (action : Option SecurityAction) : CategoryId × Ledger :=
  let (id, l) := l.issue .category
  (id, { l with categories := l.categories.put ⟨id, code, affectsBalance, action⟩ })

/-- Records a split of a security and derives its lots again. -/
def addSplit (l : Ledger) (id : SecurityId) (split : StockSplit) : Except Failure Ledger := do
  let s ← orError (.ledger (.securityNotFound id)) (l.security? id)
  let history ← s.history.insert split
  let l := { l with securities := l.securities.put { s with history } }
  l.rederiveLotsOfSecurity id

/-- Takes out the split of a security on a day, if there is one, and derives its lots again. -/
def removeSplit (l : Ledger) (id : SecurityId) (date : Date) :
    Except Failure (Option StockSplit × Ledger) := do
  let s ← orError (.ledger (.securityNotFound id)) (l.security? id)
  match s.history.on? date with
  | none => return (none, l)
  | some split =>
      let l := { l with securities := l.securities.put { s with history := s.history.remove date } }
      return (some split, ← l.rederiveLotsOfSecurity id)

end Lotbook.Ledger
