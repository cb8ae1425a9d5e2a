/-
# Lotbook.Json.Form -- the JSON form of a type

A form says how values of a type are written as compact JSON and read back. Records are written as
objects with all fields in a fixed order. They are read from objects, where unknown members are
ignored and no known one may come twice, or from arrays of all fields in order. A field that is
missing counts as null, which only optional values take.
-/
import Lotbook.Date
import Lotbook.Identity
import Lotbook.Json.Value
import Lotbook.Text.Named

namespace Lotbook.Json

/-- How the values of a type are written as JSON and read from it. -/
class Form (α : Type) where
  write : α → List Char
  read? : Json → Option α

export Form (write read?)

/-- A value as JSON text. -/
def toText {α : Type} [Form α] (a : α) : String := String.ofList (write a)

/-- The value that a JSON text writes. -/
def ofText? {α : Type} [Form α] (s : String) : Option α := (ofChars? s.toList).bind read?

/-! ## Writing -/

/-- A hexadecimal digit in lower case. -/
def hexDigit (n : Nat) : Char := if n < 10 then Char.ofNat (0x30 + n) else Char.ofNat (0x57 + n)

/-- A character inside a string; only quotes, backslashes and control characters are escaped. -/
def escape (c : Char) : List Char :=
  if c = '"' then ['\\', '"']
  else if c = '\\' then ['\\', '\\']
  else if c = '\x08' then ['\\', 'b']
  else if c = '\x0c' then ['\\', 'f']
  else if c = '\n' then ['\\', 'n']
  else if c = '\r' then ['\\', 'r']
  else if c = '\t' then ['\\', 't']
  else if c.toNat < 0x20 then
    ['\\', 'u', '0', '0', hexDigit (c.toNat / 16), hexDigit (c.toNat % 16)]
  else [c]

/-- A string between quotes. -/
def quoted (cs : List Char) : List Char := '"' :: cs.flatMap escape ++ ['"']

/-- An array of written values. -/
def arrayChars (items : List (List Char)) : List Char :=
  '[' :: List.intercalate [','] items ++ [']']

/-- An object of named written values. -/
def objectChars (members : List (String × List Char)) : List Char :=
  '\x7b' :: List.intercalate [','] (members.map fun m => quoted m.1.toList ++ ':' :: m.2) ++ ['\x7d']

/-! ## Reading records -/

/-- The values of the given fields in order, where they are given: from an object by name, or from
an array by place, which may stop early if `short` is set. -/
def given? (fields : List String) (short : Bool) : Json → Option (List (Option Json))
  | .array items =>
      if items.length = fields.length ∨ (short ∧ items.length < fields.length) then
        some ((List.range fields.length).map fun i => items[i]?)
      else none
  | .object members =>
      let valuesOf := fun (field : String) =>
        (members.filter fun m => m.1 == some field.toList).map Prod.snd
      if (members.all fun m => m.1.isSome) ∧ (fields.all fun f => (valuesOf f).length ≤ 1) then
        some (fields.map fun f => (valuesOf f).head?)
      else none
  | _ => none

/-- The values of the given fields in order; one that is missing is null. -/
def fields? (fields : List String) (j : Json) : Option (List Json) :=
  (given? fields false j).map fun values => values.map fun value => value.getD .null

/-! ## Values of single fields -/

/-- The characters of a string. -/
def chars? : Json → Option (List Char)
  | .string text => text
  | _ => none

/-- A whole number. -/
def integer? : Json → Option Int
  | .number literal => literal.integer?
  | _ => none

/-- A whole number of 32 bits without a sign. -/
def unsigned32? (j : Json) : Option Nat :=
  (integer? j).bind fun n => if 0 ≤ n ∧ n < twoTo 32 then some n.toNat else none

instance : Form Bool where
  write b := if b then ['t', 'r', 'u', 'e'] else ['f', 'a', 'l', 's', 'e']
  read?
    | .bool b => some b
    | _ => none

/-- Whole numbers are those of 64 bits with a sign. -/
instance : Form Int where
  write := Text.signedDigits
  read? j := (integer? j).bind fun n => if -(twoTo 63 : Nat) ≤ n ∧ n < twoTo 63 then some n else none

instance : Form String where
  write s := quoted s.toList
  read? j := (chars? j).map String.ofList

/-- Decimals are written as numbers and read from numbers or strings. -/
instance : Form Decimal where
  write := decimalChars
  read?
    | .number literal => literal.decimal?
    | .string text => text.bind fun cs => Decimal.ofText? (String.ofList cs)
    | _ => none

instance : Form Date where
  write d := quoted d.text.toList
  read? j := (chars? j).bind fun cs => Date.read? (String.ofList cs)

instance (kind : IdentityKind) : Form (Identity kind) where
  write id := write id.number
  read? j := (read? j).map Identity.mk

instance {α : Type} [Form α] : Form (Option α) where
  write
    | none => ['n', 'u', 'l', 'l']
    | some a => write a
  read?
    | .null => some none
    | j => (read? j).map some

instance {α : Type} [Form α] : Form (List α) where
  write as := arrayChars (as.map write)
  read?
    | .array items => items.mapM read?
    | _ => none

/-! ## Choices -/

/-- The name and the content of a choice written as an object with one member. -/
def choice? : Json → Option (List Char × Json)
  | .object [(some name, content)] => some (name, content)
  | _ => none

/-- A choice without content, by its name alone or as an object whose only member is null. -/
def named? {α : Type} [Text.Named α] (j : Json) : Option α :=
  match j with
  | .string (some name) => Text.ofName? (String.ofList name)
  | .object [(some name, .null)] => Text.ofName? (String.ofList name)
  | _ => none

/-- The form of a finite choice: its name. -/
abbrev namedForm (α : Type) [Text.Named α] : Form α where
  write a := quoted (Text.name a).toList
  read? := named?

end Lotbook.Json
