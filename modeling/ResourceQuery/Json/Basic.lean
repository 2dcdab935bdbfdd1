import ResourceQuery.NameMap
import ResourceQuery.Numeral.BinaryText
/-!
# JSON documents

A document as a tree. Members of an object stand in the order they were written, and a name may
occur more than once; `Json.canonical` sorts them and keeps the last of each name.
-/

namespace ResourceQuery

namespace Json

/-- Integers and binary numbers are different numbers, whatever their value. -/
inductive Number
  | integer (n : Int)
  | single (x : Single)
  | double (x : Double)
  deriving DecidableEq, Repr

def Number.text : Number → String
  | integer n => Numeral.ofInt n
  | single x => x.dataText
  | double x => x.dataText

end Json

inductive Json
  | null
  | bool (b : Bool)
  | number (n : Json.Number)
  | string (s : String)
  | array (items : List Json)
  | object (members : List (String × Json))
  deriving Inhabited

namespace Json

def ofNat (n : Nat) : Json := .number (.integer n)

def ofOption {α : Type} (f : α → Json) : Option α → Json
  | some a => f a
  | none => .null

mutual

/-- Objects with their names sorted; of a repeated name the last value stays. -/
def canonical : Json → Json
  | array items => array (canonicalItems items)
  | object members => object (NameMap.ofList (canonicalMembers members))
  | leaf => leaf

def canonicalItems : List Json → List Json
  | [] => []
  | item :: rest => canonical item :: canonicalItems rest

def canonicalMembers : List (String × Json) → List (String × Json)
  | [] => []
  | (name, value) :: rest => (name, canonical value) :: canonicalMembers rest

end

mutual

/-- The number of values and names in a document. -/
def weight : Json → Nat
  | array items => 1 + weightItems items
  | object members => 1 + weightMembers members
  | _ => 1

def weightItems : List Json → Nat
  | [] => 0
  | item :: rest => 1 + weight item + weightItems rest

def weightMembers : List (String × Json) → Nat
  | [] => 0
  | (_, value) :: rest => 1 + weight value + weightMembers rest

end

end Json

end ResourceQuery
