import ResourceQuery.Filter.Basic
/-!
# Sort orders

Records are compared by segments first, those that pass a filter behind those that do not, and then
by properties. A sort key is a single value with an order: no collection, object or dynamic value,
and of a reference the identifier.
-/

namespace ResourceQuery

inductive Direction
  | asc
  | desc
  deriving DecidableEq, Repr

namespace Direction

def name : Direction → String
  | asc => "asc"
  | desc => "desc"

def ofName? (name : String) : Option Direction :=
  if name = "asc" then some asc else if name = "desc" then some desc else none

end Direction

structure PropertySort where
  direction : Direction
  path : Path
  transform : Option Transform
  /-- The identifier of the referenced resource is compared. -/
  byId : Bool
  deriving DecidableEq, Repr

namespace PropertySort

/-- The element of an order parameter; the ascending direction is not named. -/
def encode (p : PropertySort) : String :=
  let qualifiers := (if p.byId then ["id"] else [])
    ++ (p.transform.map Transform.encode).toList
    ++ (if p.direction = .desc then ["desc"] else [])
  Text.join ":" (p.path.text :: qualifiers)

end PropertySort

/-- In ascending direction, records that pass the filter come last. -/
structure Segment where
  direction : Direction
  key : String
  filter : Filter

namespace Segment

def encode (s : Segment) : String :=
  "$" ++ s.key ++ (if s.direction = .desc then ":desc" else "")

end Segment

inductive SortElement
  | segment (segment : Segment)
  | property (property : PropertySort)

def SortElement.encode : SortElement → String
  | segment s => s.encode
  | property p => p.encode

structure SortOrder where
  resourceType : String
  segments : List Segment
  properties : List PropertySort

namespace SortOrder

/-- No order at all. -/
def none (s : Schema) (resourceType : String) : Except Fault SortOrder := do
  return ⟨(← s.resource resourceType).name, [], []⟩

/-- The type that is compared: that of the property, or of the identifier behind a reference. -/
def sortedType (s : Schema) (path : String) (type : ValueType) (byId : Bool) :
    Except Fault ValueType :=
  let refuse (flaw : Fault.UseFlaw) : Except Fault ValueType := .error (Fault.of (.use path flaw))
  match type with
  | .object _ => refuse .sortObject
  | .dynamic => refuse .sortDynamic
  | .reference target =>
    if !byId then refuse .sortReference
    else match ((target.resource?.bind s.container?).filter Container.isResource).bind
        Container.identifier? with
      | some id => .ok id.type
      | Option.none => refuse .sortWithoutIdentifier
  | other => if byId then refuse .sortIdOfNonReference else .ok other

/-- Sort by a property, behind what the order holds already. -/
def add (s : Schema) (o : SortOrder) (direction : Direction) (path : String)
    (transform : Option Transform) (byId : Bool) : Except Fault SortOrder := do
  let resolved ← Path.resolve s o.resourceType path
  resolved.checkEvaluable s
  let property ← resolved.terminal
  if resolved.isMultiValued then throw (Fault.of (.use path .sortCollection))
  let sorted ← sortedType s path property.type byId
  if let some t := transform then
    if !t.appliesTo sorted then
      throw (Fault.of (.use path (.transformOfNonString t.function.name)))
  return { o with properties := o.properties ++ [⟨direction, resolved, transform, byId⟩] }

/-- Segment the records by a filter over the same resource type. -/
def addSegment (o : SortOrder) (direction : Direction) (key : String) (filter : Filter) :
    Except Fault SortOrder :=
  if filter.resourceType ≠ o.resourceType ∨ filter.basePath.isSome then
    .error (Fault.of (.request (.segmentElsewhere key o.resourceType)))
  else .ok { o with segments := o.segments ++ [⟨direction, key, filter⟩] }

/-- The elements in the order of comparison. -/
def elements (o : SortOrder) : List SortElement :=
  o.segments.map .segment ++ o.properties.map .property

def isEmpty (o : SortOrder) : Bool := o.segments.isEmpty && o.properties.isEmpty

def encode (o : SortOrder) : String := Text.join "," (o.elements.map SortElement.encode)

end SortOrder

end ResourceQuery
