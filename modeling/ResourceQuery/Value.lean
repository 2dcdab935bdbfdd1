import ResourceQuery.Calendar.Instant
import ResourceQuery.NameMap
import ResourceQuery.Numeral.BinaryText
import ResourceQuery.Numeral.Decimal
import ResourceQuery.Numeral.Whole
import ResourceQuery.ValueType.Basic
/-!
# Values

What properties hold at run time. A value knows its own kind and not the declared type of the
property it stands in. Scalars and references have a text; objects, collections and the missing
value have none. `Value.same` compares by meaning: decimals as numbers, binary numbers as numbers,
and all else part by part.
-/

namespace ResourceQuery

inductive Value
  | null
  | bool (b : Bool)
  | whole (width : Width) (n : Whole width)
  | float (x : Single)
  | double (x : Double)
  | decimal (d : Decimal)
  | date (t : Instant)
  | text (s : String)
  | enum (s : String)
  | reference (resourceType : String) (id : Value)
  | object (typeName : String) (properties : List (String × Value))
  | list (items : List Value)
  | set (items : List Value)
  | map (entries : List (Value × Value))
  deriving Inhabited

/-- A typed pointer to a resource. -/
structure ResourceRef where
  resourceType : String
  id : Value

/-- Property values of a resource or an embedded object; for an object of a polymorphic type the
name is that of its variant. -/
structure Instance where
  typeName : String
  properties : NameMap Value

namespace Value

def isNull : Value → Bool
  | null => true
  | _ => false

def ofRef (r : ResourceRef) : Value := .reference r.resourceType r.id

def ofInstance (i : Instance) : Value := .object i.typeName i.properties

def text? : Value → Option String
  | text s | enum s => some s
  | _ => none

def whole? : Value → Option Int
  | whole _ n => some n.value
  | _ => none

def instance? : Value → Option Instance
  | object typeName properties => some ⟨typeName, properties⟩
  | _ => none

def ref? : Value → Option ResourceRef
  | reference resourceType id => some ⟨resourceType, id⟩
  | _ => none

/-- The elements of a collection; of a map the values. -/
def elements : Value → List Value
  | list items | set items => items
  | map entries => entries.map Prod.snd
  | _ => []

/-- The name of the kind of a value. -/
def kindName : Value → String
  | null => "null"
  | bool _ => "boolean"
  | whole width _ => width.name
  | float _ => "float"
  | double _ => "double"
  | decimal _ => "decimal"
  | date _ => "date"
  | text _ => "string"
  | enum _ => "enum"
  | reference .. => "reference"
  | object .. => "object"
  | list _ => "list"
  | set _ => "set"
  | map _ => "map"

/-- The separator between the type and the identifier of a reference. -/
def referenceSeparator : Char := '#'

/-- The text of a scalar or a reference. An identifier without a text shows its kind. -/
def toText? : Value → Option String
  | bool b => some (if b then "true" else "false")
  | whole _ n => some n.toText
  | float x => some x.positional
  | double x => some x.positional
  | decimal d => some d.toText
  | date t => some t.toText
  | text s | enum s => some s
  | reference resourceType id =>
    some (resourceType ++ "#" ++ (id.toText?.getD ("<" ++ id.kindName ++ ">")))
  | _ => none

/-- The text of a value, or its kind in angle brackets. -/
def describe (v : Value) : String := v.toText?.getD ("<" ++ v.kindName ++ ">")

mutual

/-- Equality of meaning. -/
def same : Value → Value → Bool
  | null, null => true
  | bool a, bool b => a == b
  | whole v m, whole w n => v == w && m.value == n.value
  | float a, float b => a.equal b
  | double a, double b => a.equal b
  | decimal a, decimal b => a.equal b
  | date a, date b => a == b
  | text a, text b => a == b
  | enum a, enum b => a == b
  | reference s a, reference t b => s == t && same a b
  | object s ps, object t qs => s == t && sameProperties ps qs
  | list xs, list ys => sameItems xs ys
  | set xs, set ys => sameItems xs ys
  | map es, map fs => sameEntries es fs
  | _, _ => false

def sameItems : List Value → List Value → Bool
  | [], [] => true
  | x :: xs, y :: ys => same x y && sameItems xs ys
  | _, _ => false

def sameProperties : List (String × Value) → List (String × Value) → Bool
  | [], [] => true
  | (m, x) :: xs, (n, y) :: ys => m == n && same x y && sameProperties xs ys
  | _, _ => false

def sameEntries : List (Value × Value) → List (Value × Value) → Bool
  | [], [] => true
  | (k, x) :: xs, (l, y) :: ys => same k l && same x y && sameEntries xs ys
  | _, _ => false

end

end Value

namespace ResourceRef

/-- The written form, `<type>#<id>`. -/
def encode (r : ResourceRef) : String := r.resourceType ++ "#" ++ r.id.describe

/-- The type and the identifier text of a written reference; neither may be empty. -/
def split? (text : String) : Option (String × String) :=
  match Text.splitFirst Value.referenceSeparator text.toList with
  | some (type, id) =>
    if type.isEmpty || id.isEmpty then none else some (String.ofList type, String.ofList id)
  | none => none

end ResourceRef

namespace Instance

def empty (typeName : String) : Instance := ⟨typeName, []⟩

def get? (i : Instance) (name : String) : Option Value := NameMap.find? name i.properties

def set (i : Instance) (name : String) (value : Value) : Instance :=
  { i with properties := NameMap.insert name value i.properties }

def contains (i : Instance) (name : String) : Bool := NameMap.contains name i.properties

/-- Properties of another instance put where this one has none. -/
def mergeMissing (i other : Instance) : Instance :=
  { i with
    properties := other.properties.foldl
      (fun m entry => if NameMap.contains entry.1 m then m else NameMap.insert entry.1 entry.2 m)
      i.properties }

end Instance

namespace ValueType

/-- The type that a value tells of itself; elements of collections tell theirs in turn. -/
def ofValue : Value → ValueType
  | .null => dynamic
  | .bool _ => scalar .boolean
  | .whole width _ => scalar (.whole width)
  | .float _ => scalar .float
  | .double _ => scalar .double
  | .decimal _ => scalar .decimal
  | .date _ => scalar .date
  | .text _ => string
  | .enum s => enum [s]
  | .reference resourceType _ => reference (Target.ofName resourceType)
  | .object typeName _ => object typeName
  | .list _ => list dynamic
  | .set _ => set dynamic
  | .map _ => map dynamic dynamic

end ValueType

end ResourceQuery
