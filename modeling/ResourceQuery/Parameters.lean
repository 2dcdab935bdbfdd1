import ResourceQuery.NameMap
import ResourceQuery.Text.Form
/-!
# Query parameters

Parameters by name, each with the values that were given for it. Names are kept sorted, so the
parameters of a filter group stand together: `Parameters.withPrefix` starts at the first name that
is not below the prefix and stops at the first one that does not have it.
-/

namespace ResourceQuery

structure Parameters where
  entries : NameMap (List String)
  sorted : entries.Sorted

namespace Parameters

def empty : Parameters := ⟨[], List.Pairwise.nil⟩

def values (p : Parameters) (name : String) : List String := (p.entries.find? name).getD []

/-- Give one more value to a parameter. -/
def add (p : Parameters) (name value : String) : Parameters :=
  ⟨p.entries.insert name (p.values name ++ [value]), NameMap.sorted_insert name _ p.sorted⟩

def ofPairs (pairs : List (String × String)) : Parameters :=
  pairs.foldl (fun p pair => p.add pair.1 pair.2) empty

def contains (p : Parameters) (name : String) : Bool := NameMap.contains name p.entries

/-- The first value of a parameter. -/
def first? (p : Parameters) (name : String) : Option String := (p.values name).head?

/-- The first value of a parameter that is not empty. -/
def firstNonEmpty? (p : Parameters) (name : String) : Option String :=
  (p.values name).find? fun value => !value.isEmpty

def names (p : Parameters) : List String := NameMap.keys p.entries

def size (p : Parameters) : Nat := p.entries.length

def isEmpty (p : Parameters) : Bool := p.entries.isEmpty

/-- The parameters whose names start with a text, in the order of names. -/
def withPrefix (p : Parameters) (start : String) : NameMap (List String) :=
  (p.entries.dropWhile fun entry => entry.1 < start).takeWhile fun entry =>
    Text.startsWith entry.1 start

/-- Names and values as pairs, in the order of names. -/
def toPairs (p : Parameters) : List (String × String) :=
  p.entries.flatMap fun (name, values) => values.map fun value => (name, value)

/-- The parameters of a query string; a question mark in front is no part of it. -/
def parse (query : String) : Parameters :=
  let query := match query.toList with
    | '?' :: rest => rest
    | chars => chars
  ofPairs ((Text.Form.parse query).map fun (name, value) =>
    (String.ofList name, String.ofList value))

/-- The parameters as a query string. -/
def encode (p : Parameters) : String :=
  String.ofList
    (Text.Form.print (p.toPairs.map fun (name, value) => (name.toList, value.toList)))

end Parameters

end ResourceQuery
