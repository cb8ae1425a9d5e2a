/-
# Lotbook.Json.Value -- JSON values and how they are built from tokens

A value is built by a machine that keeps the arrays and objects not yet closed on a stack, so texts
may nest as deeply as they like. Objects keep their members in order, repeated names included.
-/
import Lotbook.Json.Token

namespace Lotbook

/-- A JSON value. The name of a member, and a string, may lack a text (see `Json.Token.string`). -/
inductive Json where
  | null
  | bool (value : Bool)
  | number (literal : Json.NumberLiteral)
  | string (text : Option (List Char))
  | array (items : List Json)
  | object (members : List (Option (List Char) × Json))

namespace Json

/-- An array or object that is not closed yet; what it holds so far is in reverse. An object also
has the name of the member whose value comes next. -/
inductive Frame where
  | array (items : List Json)
  | object (members : List (Option (List Char) × Json)) (name : Option (List Char))

/-- What may come next. -/
inductive Expect where
  | value
  | valueOrEnd
  | name
  | nameOrEnd
  | colon
  | commaOrEnd
  | nothing
  deriving DecidableEq

/-- A value under construction: the open frames, innermost first, and the outermost value once it is
complete. -/
structure Builder where
  frames : List Frame
  expect : Expect
  result : Json

namespace Builder

/-- The builder before the first token. -/
def start : Builder := ⟨[], .value, .null⟩

/-- Adds a complete value to the innermost open frame. -/
def add (b : Builder) (value : Json) : Builder :=
  match b.frames with
  | [] => { b with expect := .nothing, result := value }
  | .array items :: rest => { b with frames := .array (value :: items) :: rest, expect := .commaOrEnd }
  | .object members name :: rest =>
      { b with frames := .object ((name, value) :: members) name :: rest, expect := .commaOrEnd }

/-- Takes a token that begins a value. -/
def begin? (b : Builder) : Token → Option Builder
  | .null => some (b.add .null)
  | .bool value => some (b.add (.bool value))
  | .number literal => some (b.add (.number literal))
  | .string text => some (b.add (.string text))
  | .beginArray => some { b with frames := .array [] :: b.frames, expect := .valueOrEnd }
  | .beginObject => some { b with frames := .object [] none :: b.frames, expect := .nameOrEnd }
  | _ => none

/-- Closes the innermost frame with the bracket of its kind. -/
def close? (b : Builder) (token : Token) : Option Builder :=
  match b.frames, token with
  | .array items :: rest, .endArray =>
      some ({ b with frames := rest }.add (.array items.reverse))
  | .object members _ :: rest, .endObject =>
      some ({ b with frames := rest }.add (.object members.reverse))
  | _, _ => none

/-- Takes the name of the next member. -/
def name? (b : Builder) (token : Token) : Option Builder :=
  match b.frames, token with
  | .object members _ :: rest, .string text =>
      some { b with frames := .object members text :: rest, expect := .colon }
  | _, _ => none

/-- Takes the comma between two items or two members. -/
def comma? (b : Builder) : Option Builder :=
  match b.frames with
  | .array _ :: _ => some { b with expect := .value }
  | .object _ _ :: _ => some { b with expect := .name }
  | [] => none

/-- Takes one token. -/
def step? (b : Builder) (token : Token) : Option Builder :=
  match b.expect with
  | .value => b.begin? token
  | .valueOrEnd => if token = .endArray then b.close? token else b.begin? token
  | .name => b.name? token
  | .nameOrEnd => if token = .endObject then b.close? token else b.name? token
  | .colon => if token = .colon then some { b with expect := .value } else none
  | .commaOrEnd => if token = .comma then b.comma? else b.close? token
  | .nothing => none

end Builder

/-- The value that a list of tokens writes. -/
def ofTokens? (tokens : List Token) : Option Json :=
  (tokens.foldlM Builder.step? .start).bind fun b =>
    if b.expect = .nothing then some b.result else none

/-- The value that a text writes. -/
def ofChars? (cs : List Char) : Option Json := (tokens? cs).bind ofTokens?

end Json

end Lotbook
