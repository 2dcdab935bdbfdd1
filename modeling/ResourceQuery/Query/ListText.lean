import ResourceQuery.Query.Element
import ResourceQuery.Numeral.Whole
/-!
# Values of list parameters

The order, projection, reference and range parameters. Elements stand between commas, and an empty
text is an empty list.
-/

namespace ResourceQuery

/-- An element of an order: `$key` for the records that pass a filter, or a property. -/
inductive OrderText
  | segment (key : String) (descending : Bool) (position : Position)
  | property (path : PathText) (qualifiers : List Qualifier)
  deriving DecidableEq, Repr

namespace OrderText

def direction : Reader Bool :=
  Reader.orElse (do Reader.word ['a', 's', 'c']; return false)
    (do Reader.word ['d', 'e', 's', 'c']; return true)

/-- A direction belongs to a segment only if the element ends behind it. -/
def segmentDirection : Reader Bool := do
  Reader.char ':'
  let descending ← direction
  Reader.atElementEnd
  return descending

def segmentReader : Reader OrderText := do
  let position ← Reader.position
  Reader.char '$'
  let key ← Reader.identifier
  let descending ← Reader.optional segmentDirection
  return segment key (descending.getD false) position

def propertyReader : Reader OrderText := do
  let path ← PathText.reader
  return property path (← Qualifier.listReader)

def reader : Reader OrderText := Reader.orElse segmentReader propertyReader

def parse (text : String) : Except Fault (List OrderText) :=
  Reader.readAll "order" (Reader.separated ',' reader) text

end OrderText

/-- An element of a projection: `*`, `path`, `-path`, `path.*` or `path/key`. -/
inductive ProjectionText
  | includeAll (position : Position)
  | includePath (path : PathText)
  | excludePath (path : PathText)
  | fetchPath (path : PathText)
  | scopePath (path : PathText) (key : String)
  deriving DecidableEq, Repr

namespace ProjectionText

def allReader : Reader ProjectionText := do
  let position ← Reader.position
  Reader.char '*'
  return includeAll position

def excludeReader : Reader ProjectionText := do
  Reader.char '-'
  return excludePath (← PathText.reader)

def pathReader : Reader ProjectionText := do
  let path ← PathText.reader
  match ← Reader.optional (Reader.word ['.', '*']) with
  | some _ => return fetchPath path
  | none =>
    match ← Reader.optional (do Reader.char '/'; Reader.identifier) with
    | some key => return scopePath path key
    | none => return includePath path

def reader : Reader ProjectionText :=
  Reader.orElse allReader (Reader.orElse excludeReader pathReader)

def parse (text : String) : Except Fault (List ProjectionText) :=
  Reader.readAll "projection" (Reader.separated ',' reader) text

end ProjectionText

namespace PathText

def parseList (text : String) : Except Fault (List PathText) :=
  Reader.readAll "reference list" (Reader.separated ',' reader) text

def parse (text : String) : Except Fault PathText := Reader.readAll "property path" reader text

end PathText

/-- A window of results: the number of the first one, and how many. -/
structure Range where
  first : Nat
  count : Nat
  deriving DecidableEq, Repr

namespace Range

/-- The greatest number that a range may name. -/
def greatest : Nat := 0xffffffffffffffff

def numberReader : Reader Nat := do
  let start ← Reader.position
  let digits ← Reader.run1 Char.isDigit
  let n := Numeral.value digits
  if n ≤ greatest then return n else throw (.broken start)

def reader : Reader Range := do
  let first ← numberReader
  Reader.char ','
  return ⟨first, ← numberReader⟩

def parse (text : String) : Except Fault Range := Reader.readAll "range" reader text

def encode (r : Range) : String := Numeral.ofNat r.first ++ "," ++ Numeral.ofNat r.count

end Range

end ResourceQuery
