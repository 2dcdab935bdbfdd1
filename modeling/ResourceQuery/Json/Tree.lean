import ResourceQuery.DocumentTree
import ResourceQuery.Json.Basic
/-!
# JSON as a tree of declarations

Texts, truth values and numbers are told apart by their notation. A record is an object, or an array
of its fields in their order with fields left out at the end.
-/

namespace ResourceQuery.Json

private def asText : Json → Option String
  | string s => some s
  | _ => none

private def asTruth : Json → Option Bool
  | bool b => some b
  | _ => none

private def asNatural : Json → Option Nat
  | number (.integer n) => if 0 ≤ n then some n.toNat else none
  | _ => none

/-- A choice is a text, or an object with its name over nothing. -/
private def asChoice : Json → Option String
  | string s => some s
  | object [(name, null)] => some name
  | _ => none

private def asItems : Json → Option (List Json)
  | array items => some items
  | _ => none

private def asMembers : Json → Option (List (String × Json))
  | object members => some members
  | _ => none

private def asFields (names : List String) : Json → Option (List (String × Json))
  | object members => some members
  | array items => if items.length ≤ names.length then some (names.zip items) else none
  | _ => none

instance : DocumentTree Json where
  isMissing
    | null => true
    | _ => false
  text? := asText
  truth? := asTruth
  natural? := asNatural
  choice? := asChoice
  items? := asItems
  members? := asMembers
  fields? := asFields

end ResourceQuery.Json
