/-
# Lotbook.Json.Event -- keys and events as JSON

A key is an object with one member, named for its kind. An event carries its type as a field of its
own and may have it in any place; so all of the text has to be taken in before anything is known of
it, which asks more of the text than reading other records does (`isTakenIn`).
-/
import Lotbook.Event
import Lotbook.Json.Ledger

namespace Lotbook

open Json (Form write read? objectChars)

/-! ## Kinds and keys -/

instance : Form EntityKind := Json.namedForm _

instance : Form ChangeKind := Json.namedForm _

namespace EntityKey

/-- The name of the only member of a key's object, and its content. -/
def member : EntityKey → String × List Char
  | .transaction id => ("transaction", write id)
  | .entry id => ("entry", write id)
  | .lot key => ("lot", write key)
  | .stockSplit s date => ("stock_split", Json.arrayChars [write s, write date])
  | .security id => ("security", write id)
  | .category id => ("category", write id)
  | .account id => ("account", write id)

/-- The security and the date of a split, as an array of exactly two. -/
def splitKey? : Json → Option EntityKey
  | .array [s, date] => do return .stockSplit (← read? s) (← read? date)
  | _ => none

/-- The key with the given member name and content. -/
def ofMember? (name : String) (content : Json) : Option EntityKey :=
  match name with
  | "transaction" => (read? content).map .transaction
  | "entry" => (read? content).map .entry
  | "lot" => (read? content).map .lot
  | "stock_split" => splitKey? content
  | "security" => (read? content).map .security
  | "category" => (read? content).map .category
  | "account" => (read? content).map .account
  | _ => none

instance : Form EntityKey where
  write key := objectChars [key.member]
  read? j := (Json.choice? j).bind fun (name, content) => ofMember? (String.ofList name) content

end EntityKey

/-! ## Summaries -/

instance : Form AccountSummary where
  write s := objectChars
    [("accountId", write s.account),
     ("balanceDelta", write s.balanceDelta),
     ("transactionCountDelta", write s.countDelta)]
  read? j := do
    let [account, balanceDelta, countDelta] ←
      Json.fields? ["accountId", "balanceDelta", "transactionCountDelta"] j | none
    return ⟨← read? account, ← read? balanceDelta, ← read? countDelta⟩

instance : Form PositionSummary where
  write s := objectChars
    [("accountId", write s.account),
     ("securityId", write s.security),
     ("shareDelta", write s.shareDelta),
     ("transactionCountDelta", write s.countDelta)]
  read? j := do
    let [account, security, shareDelta, countDelta] ←
      Json.fields? ["accountId", "securityId", "shareDelta", "transactionCountDelta"] j | none
    return ⟨← read? account, ← read? security, ← read? shareDelta, ← read? countDelta⟩

/-! ## Events -/

namespace Json

/-- How deep a text that is taken in as a whole may nest. -/
def maxTakenDepth : Nat := 127

/-- The depth after a token. -/
def depthAfter (depth : Nat) : Token → Nat
  | .beginArray | .beginObject => depth + 1
  | .endArray | .endObject => depth - 1
  | _ => depth

/-- Whether a token can be taken in: numbers have a value, strings have a text. -/
def Token.isTakenIn : Token → Bool
  | .number literal => literal.inRange
  | .string text => text.isSome
  | _ => true

/-- Whether all tokens can be taken in without nesting too deep. -/
def isTakenIn (depth : Nat) : List Token → Bool
  | [] => true
  | t :: ts => t.isTakenIn && depthAfter depth t ≤ maxTakenDepth && isTakenIn (depthAfter depth t) ts

/-- A choice without content in a text that was taken in, where an empty object is as good as a null
content. -/
def takenNamed? {α : Type} [Text.Named α] (j : Json) : Option α :=
  match j with
  | .object [(name, .object [])] => named? (.string name)
  | j => named? j

end Json

namespace Event

/-- The fields of an event of the given type, read from what stands beside the type. -/
def ofFields? (type : String) (j : Json) : Option Event :=
  match type with
  | "entities_changed" => do
      let [entities, kind, keys] ← Json.fields? ["domain_type", "kind", "keys"] j | none
      return .entitiesChanged (← Json.takenNamed? entities) (← Json.takenNamed? kind) (← read? keys)
  | "account_summaries_changed" => do
      let [summaries] ← Json.fields? ["summaries"] j | none
      return .accountSummariesChanged (← read? summaries)
  | "security_summaries_changed" => do
      let [summaries] ← Json.fields? ["summaries"] j | none
      return .securitySummariesChanged (← read? summaries)
  | _ => none

/-- Reads an event from an object with a member for its type, or from an array led by its type. -/
def ofJson? : Json → Option Event
  | .object members =>
      let (types, others) := members.partition fun m => m.1 == some "type".toList
      match types with
      | [(_, type)] => (Json.chars? type).bind fun cs => ofFields? (String.ofList cs) (.object others)
      | _ => none
  | .array (type :: others) =>
      (Json.chars? type).bind fun cs => ofFields? (String.ofList cs) (.array others)
  | _ => none

instance : Form Event where
  write
    | .entitiesChanged entities kind keys => objectChars
        [("type", write "entities_changed"),
         ("domain_type", write entities),
         ("kind", write kind),
         ("keys", write keys)]
    | .accountSummariesChanged summaries => objectChars
        [("type", write "account_summaries_changed"), ("summaries", write summaries)]
    | .securitySummariesChanged summaries => objectChars
        [("type", write "security_summaries_changed"), ("summaries", write summaries)]
  read? := ofJson?

/-- The event that a text writes; the text has to be one that can be taken in as a whole. -/
def ofText? (s : String) : Option Event :=
  (Json.tokens? s.toList).bind fun tokens =>
    if Json.isTakenIn 0 tokens then (Json.ofTokens? tokens).bind ofJson? else none

end Event

end Lotbook
