import ResourceQuery.Json.Basic
import ResourceQuery.Specification
/-!
# Specifications as JSON

The written form of a specification, field by field. Operands are written by the function that is
given, as values have a form of their own; `Value.toJson` is one that names the kind of the value.
-/

namespace ResourceQuery

mutual

/-- A value under the name of its kind. -/
def Value.toJson : Value → Json
  | .null => .string "Null"
  | .bool b => .object [("Bool", .bool b)]
  | .whole .byte n => .object [("Byte", .number (.integer n.value))]
  | .whole .short n => .object [("Short", .number (.integer n.value))]
  | .whole .integer n => .object [("Integer", .number (.integer n.value))]
  | .whole .long n => .object [("Long", .number (.integer n.value))]
  | .float x => .object [("Float", .number (.single x))]
  | .double x => .object [("Double", .number (.double x))]
  | .decimal d => .object [("Decimal", .string d.toText)]
  | .date t => .object [("Date", .string t.toText)]
  | .text s => .object [("Text", .string s)]
  | .enum s => .object [("Enum", .string s)]
  | .reference type id =>
    .object [("Reference", .object [("resource_type", .string type), ("id", id.toJson)])]
  | .object type properties =>
    .object [("Object", .object
      [("type_name", .string type), ("properties", .object (Value.propertiesToJson properties))])]
  | .list items => .object [("List", .array (Value.itemsToJson items))]
  | .set items => .object [("Set", .array (Value.itemsToJson items))]
  | .map entries => .object [("Map", .array (Value.entriesToJson entries))]

def Value.itemsToJson : List Value → List Json
  | [] => []
  | item :: rest => item.toJson :: Value.itemsToJson rest

def Value.propertiesToJson : List (String × Value) → List (String × Json)
  | [] => []
  | (name, value) :: rest => (name, value.toJson) :: Value.propertiesToJson rest

def Value.entriesToJson : List (Value × Value) → List Json
  | [] => []
  | (key, value) :: rest => .array [key.toJson, value.toJson] :: Value.entriesToJson rest

end

def Transform.toJson : Transform → Json
  | length => .string "Length"
  | lowercase => .string "Lowercase"
  | substring start count =>
    .object [("Substring", .object [("from", Json.ofNat start), ("len", Json.ofNat count)])]
  | leftPad width fill =>
    .object
      [("LeftPad", .object [("width", Json.ofNat width), ("fill", .string fill.toString)])]

def Junction.name : Junction → String
  | conjunction => "conjunction"
  | disjunction => "disjunction"

def Path.toJson (p : Path) : Json := .string p.text

/-- Names as an array. -/
def NameSet.toJson (names : NameSet) : Json := .array (names.map .string)

def NameMap.toJson {α : Type} (f : α → Json) (m : NameMap α) : Json :=
  .object (m.map fun (name, value) => (name, f value))

section Operands

variable (operand : Value → Json)

def Condition.toJson (c : Condition) : Json :=
  .object
    [("condition_type", .string c.test.label),
      ("negated", .bool c.options.negated),
      ("path", c.path.toJson),
      ("transform", Json.ofOption Transform.toJson c.options.transform),
      ("operand_kind", .string c.options.operandKind.name),
      ("operands", .array (c.operands.map operand))]

def FilterItem.toJson : FilterItem → Json
  | group number => .object [("Node", Json.ofNat number)]
  | condition c => .object [("Condition", c.toJson operand)]

def FilterGroup.toJson (g : FilterGroup) : Json :=
  .object
    [("junction", .string g.junction.name),
      ("parent", Json.ofOption Json.ofNat g.parent),
      ("items", .array (g.items.map (FilterItem.toJson operand))),
      ("used", NameSet.toJson g.used)]

def Filter.toJson (f : Filter) : Json :=
  .object
    [("resource_type", .string f.resourceType),
      ("base_path", Json.ofOption Path.toJson f.basePath),
      ("nodes", .array (f.groups.map (FilterGroup.toJson operand))),
      ("participating_types", NameSet.toJson f.participatingTypes)]

def PropertySort.toJson (p : PropertySort) : Json :=
  .object
    [("direction", .string p.direction.name),
      ("path", p.path.toJson),
      ("transform", Json.ofOption Transform.toJson p.transform),
      ("by_id", .bool p.byId)]

def Segment.toJson (s : Segment) : Json :=
  .object
    [("direction", .string s.direction.name),
      ("key", .string s.key),
      ("filter", s.filter.toJson operand)]

def SortOrder.toJson (o : SortOrder) : Json :=
  .object
    [("resource_type", .string o.resourceType),
      ("segments", .array (o.segments.map (Segment.toJson operand))),
      ("properties", .array (o.properties.map PropertySort.toJson))]

def AggregateScope.toJson (a : AggregateScope) : Json :=
  .object [("key", .string a.key), ("filter", a.filter.toJson operand)]

def Projection.toJson (p : Projection) : Json :=
  .object
    [("resource_type", .string p.resourceType),
      ("include_by_default", .bool p.includeByDefault),
      ("rules", NameMap.toJson .bool p.rules),
      ("fetched", NameMap.toJson .string p.fetched),
      ("aggregate_scopes", NameMap.toJson (AggregateScope.toJson operand) p.scopes)]

def References.toJson (r : References) : Json :=
  .object
    [("resource_type", .string r.resourceType), ("paths", NameMap.toJson .string r.paths)]

def Range.toJson (r : Range) : Json :=
  .object [("first", Json.ofNat r.first), ("count", Json.ofNat r.count)]

def Specification.toJson (spec : Specification) : Json :=
  .object
    [("resource_type", .string spec.resourceType),
      ("filter", spec.filter.toJson operand),
      ("additional_filters", NameMap.toJson (Filter.toJson operand) spec.additionalFilters),
      ("order", spec.order.toJson operand),
      ("properties", spec.projection.toJson operand),
      ("references", spec.references.toJson),
      ("range", Json.ofOption Range.toJson spec.range)]

end Operands

end ResourceQuery
