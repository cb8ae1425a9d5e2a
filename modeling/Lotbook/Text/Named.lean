/-
# Lotbook.Text.Named -- finite choices and their names

A choice among finitely many values, each with a name of its own, can be read back from the name.
-/

namespace Lotbook.Text

/-- A type of finitely many values, each written as a name. -/
class Named (α : Type) where
  all : List α
  name : α → String

export Named (name)

/-- The value with the given name. -/
def ofName? {α : Type} [Named α] (s : String) : Option α := Named.all.find? fun a => name a == s

end Lotbook.Text
