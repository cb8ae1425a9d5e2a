/-
# Lotbook.Json.Token -- the tokens of a JSON text

Texts are taken strictly: no comments, no control characters in strings, numbers as the standard
writes them. A string whose escapes leave a surrogate unpaired is a token without a text, since it
only matters where the string is used.
-/
import Lotbook.Json.Number

namespace Lotbook.Json

/-- One token of a JSON text. -/
inductive Token where
  | beginArray
  | endArray
  | beginObject
  | endObject
  | comma
  | colon
  | null
  | bool (value : Bool)
  | number (literal : NumberLiteral)
  | string (text : Option (List Char))
  deriving DecidableEq

/-! ## Strings -/

/-- The value of a hexadecimal digit. -/
def hexDigit? (c : Char) : Option Nat :=
  if c.isDigit then some (c.toNat - '0'.toNat)
  else if 'a' ≤ c ∧ c ≤ 'f' then some (c.toNat - 'a'.toNat + 10)
  else if 'A' ≤ c ∧ c ≤ 'F' then some (c.toNat - 'A'.toNat + 10)
  else none

/-- The value of four hexadecimal digits. -/
def hex4? (a b c d : Char) : Option Nat := do
  return (((← hexDigit? a) * 16 + (← hexDigit? b)) * 16 + (← hexDigit? c)) * 16 + (← hexDigit? d)

/-- What a backslash and the given character stand for. -/
def simpleEscape? : Char → Option Char
  | '"' => some '"'
  | '\\' => some '\\'
  | '/' => some '/'
  | 'b' => some '\x08'
  | 'f' => some '\x0c'
  | 'n' => some '\n'
  | 'r' => some '\r'
  | 't' => some '\t'
  | _ => none

/-- The code units of a string body up to its closing quote, and what follows the quote. Characters
that stand for themselves are one unit each. -/
def stringUnits (reversed : List Nat) : List Char → Option (List Nat × List Char)
  | [] => none
  | '"' :: rest => some (reversed.reverse, rest)
  | '\\' :: 'u' :: a :: b :: c :: d :: rest =>
      (hex4? a b c d).bind fun unit => stringUnits (unit :: reversed) rest
  | '\\' :: c :: rest =>
      (simpleEscape? c).bind fun e => stringUnits (e.toNat :: reversed) rest
  | c :: rest => if c.toNat < 0x20 then none else stringUnits (c.toNat :: reversed) rest

/-- Whether a unit is the first half of a surrogate pair. -/
def isHighSurrogate (unit : Nat) : Bool := 0xD800 ≤ unit && unit < 0xDC00

/-- Whether a unit is the second half of a surrogate pair. -/
def isLowSurrogate (unit : Nat) : Bool := 0xDC00 ≤ unit && unit < 0xE000

/-- The characters of a list of units; none if a surrogate is not part of a pair. -/
def pairUnits : List Nat → Option (List Char)
  | [] => some []
  | high :: low :: rest =>
      if isHighSurrogate high then
        if isLowSurrogate low then
          (pairUnits rest).map (Char.ofNat (0x10000 + (high - 0xD800) * 0x400 + (low - 0xDC00)) :: ·)
        else none
      else if isLowSurrogate high then none
      else (pairUnits (low :: rest)).map (Char.ofNat high :: ·)
  | [unit] => if isHighSurrogate unit || isLowSurrogate unit then none else some [Char.ofNat unit]

/-! ## Numbers -/

/-- The digits in front as numbers, at least one, and what follows. -/
def digitRun? (cs : List Char) : Option (List Nat × List Char) :=
  match Text.spanDigits cs with
  | ([], _) => none
  | (ds, rest) => some (ds.filterMap Text.digit?, rest)

/-- The fraction in front, if there is a point. -/
def fraction? : List Char → Option (List Nat × List Char)
  | '.' :: cs => digitRun? cs
  | cs => some ([], cs)

/-- The number that a list of digits writes. -/
def ofDigits (ds : List Nat) : Nat := ds.foldl (fun n d => 10 * n + d) 0

/-- The exponent in front, if there is an exponent mark. -/
def exponent? (cs : List Char) : Option (Option Int × List Char) :=
  let signed := fun (sign : Int) (cs : List Char) =>
    (digitRun? cs).map fun (ds, rest) => (some (sign * ofDigits ds), rest)
  match cs with
  | c :: cs' =>
      if c = 'e' ∨ c = 'E' then
        match cs' with
        | '-' :: ds => signed (-1) ds
        | '+' :: ds => signed 1 ds
        | ds => signed 1 ds
      else some (none, cs)
  | [] => some (none, [])

/-- The number in front; a zero in front of other digits is not part of one. -/
def number? (negative : Bool) (cs : List Char) : Option (NumberLiteral × List Char) := do
  let (whole, rest) ← digitRun? cs
  if whole.head? = some 0 ∧ whole.length ≠ 1 then none
  else
    let (fraction, rest) ← fraction? rest
    let (exponent, rest) ← exponent? rest
    some (⟨negative, whole, fraction, exponent⟩, rest)

/-! ## All tokens -/

/-- The white space of JSON. -/
def isSpace (c : Char) : Bool := c == ' ' || c == '\t' || c == '\n' || c == '\r'

/-- The rest of a text that starts with the given word. -/
def after? (word : List Char) (cs : List Char) : Option (List Char) :=
  if word.isPrefixOf cs then some (cs.drop word.length) else none

/-- The token that a character begins, and what follows it. -/
def token? (c : Char) (cs : List Char) : Option (Token × List Char) :=
  match c with
  | '[' => some (.beginArray, cs)
  | ']' => some (.endArray, cs)
  | '\x7b' => some (.beginObject, cs)
  | '\x7d' => some (.endObject, cs)
  | ',' => some (.comma, cs)
  | ':' => some (.colon, cs)
  | 'n' => (after? ['u', 'l', 'l'] cs).map fun rest => (.null, rest)
  | 't' => (after? ['r', 'u', 'e'] cs).map fun rest => (.bool true, rest)
  | 'f' => (after? ['a', 'l', 's', 'e'] cs).map fun rest => (.bool false, rest)
  | '"' => (stringUnits [] cs).map fun (units, rest) => (.string (pairUnits units), rest)
  | '-' => (number? true cs).map fun (n, rest) => (.number n, rest)
  | c => (number? false (c :: cs)).map fun (n, rest) => (.number n, rest)

/-- Collects the tokens of a text in reverse; `fuel` bounds the characters left. -/
def tokensFrom? (reversed : List Token) : (fuel : Nat) → List Char → Option (List Token)
  | _, [] => some reversed.reverse
  | 0, _ :: _ => none
  | fuel + 1, c :: cs =>
      if isSpace c then tokensFrom? reversed fuel cs
      else (token? c cs).bind fun (t, rest) => tokensFrom? (t :: reversed) fuel rest

/-- The tokens of a text. -/
def tokens? (cs : List Char) : Option (List Token) := tokensFrom? [] cs.length cs

end Lotbook.Json
