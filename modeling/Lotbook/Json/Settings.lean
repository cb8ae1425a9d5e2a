/-
# Lotbook.Json.Settings -- settings as JSON

Every setting may be left out and then takes its standard value; a null is not the same as nothing.
-/
import Lotbook.Json.Form
import Lotbook.Settings

namespace Lotbook

open Json (Form write read?)

instance : Form SplitBoundary := Json.namedForm _

instance : Form LotStrategy := Json.namedForm _

namespace Settings

/-- A value that was given, or the standard one. -/
def orStandard {α : Type} (read? : Json → Option α) (standard : α) : Option Json → Option α
  | none => some standard
  | some j => read? j

instance : Form Settings where
  write s := Json.objectChars
    [("splitBoundary", write s.splitBoundary),
     ("shareScale", Text.digits s.sharePlaces),
     ("lotStrategy", write s.lotStrategy)]
  read? j := do
    let [boundary, places, strategy] ←
      Json.given? ["splitBoundary", "shareScale", "lotStrategy"] true j | none
    return {
      splitBoundary := ← orStandard read? standard.splitBoundary boundary
      sharePlaces := ← orStandard Json.unsigned32? standard.sharePlaces places
      lotStrategy := ← orStandard read? standard.lotStrategy strategy }

/-- The settings that a text writes, checked. -/
def ofText (s : String) : Except SettingsError Settings :=
  match Json.ofText? (α := Settings) s with
  | some settings => settings.validate
  | none => .error .malformed

/-- The settings in the content of a file; no content means that there is no file. -/
def ofFile (content : Option ByteArray) : Except SettingsError Settings :=
  match content.bind String.fromUTF8? with
  | some s => ofText s
  | none => .error .unreadable

end Settings

end Lotbook
