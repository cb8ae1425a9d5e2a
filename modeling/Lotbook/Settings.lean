/-
# Lotbook.Settings -- what a ledger is set up with

The rule for splits on the ends of a holding period, the places that share counts are kept at, and
the order in which a sale consumes purchases when it is not told which.
-/
import Lotbook.Split.Boundary
import Lotbook.Text.Digits

namespace Lotbook

/-- The order in which the purchases behind a sale are consumed. -/
inductive LotStrategy where
  | firstIn
  | lastIn
  | lowestPrice
  | highestPrice
  deriving DecidableEq

instance : Inhabited LotStrategy := ⟨.firstIn⟩

instance : Text.Named LotStrategy where
  all := [.firstIn, .lastIn, .lowestPrice, .highestPrice]
  name
    | .firstIn => "firstIn"
    | .lastIn => "lastIn"
    | .lowestPrice => "lowestPrice"
    | .highestPrice => "highestPrice"

/-- The settings shared by the ledger, its split histories and the matching of lots. -/
structure Settings where
  splitBoundary : SplitBoundary
  sharePlaces : Nat
  lotStrategy : LotStrategy
  deriving DecidableEq

namespace Settings

/-- The most places for share counts that settings may ask for. -/
def maxSharePlaces : Nat := 8

/-- Splits on both ends count, shares have six places, and the oldest purchase goes first. -/
def standard : Settings := ⟨.inclusive, 6, .firstIn⟩

instance : Inhabited Settings := ⟨standard⟩

end Settings

/-- Why settings are not taken. -/
inductive SettingsError where
  | unreadable
  | malformed
  | tooManyPlaces (places : Nat)
  deriving DecidableEq

/-- The text of a settings error; only a value out of bounds has one of its own. -/
def SettingsError.message : SettingsError → String
  | .unreadable | .malformed => ""
  | .tooManyPlaces places =>
      "Invalid configuration value: shareScale must be at most "
        ++ Text.written Settings.maxSharePlaces ++ ", got " ++ Text.written places

/-- The settings, if their values are within bounds. -/
def Settings.validate (s : Settings) : Except SettingsError Settings :=
  if maxSharePlaces < s.sharePlaces then .error (.tooManyPlaces s.sharePlaces) else .ok s

end Lotbook
