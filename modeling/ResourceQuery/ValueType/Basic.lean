import ResourceQuery.Numeral.Whole
import ResourceQuery.Text.Piece
/-!
# Value types

What a property holds: a leaf, or a list, set or map over a further type. The number of collection
levels is the degree; the leaf stands under all of them. `expression` is the written form of a type,
`list<ref(Role)>` for instance.
-/

namespace ResourceQuery

inductive ScalarKind
  | string
  | whole (width : Width)
  | float
  | double
  | boolean
  | decimal
  | date
  deriving DecidableEq, Repr

namespace ScalarKind

def name : ScalarKind → String
  | string => "string"
  | whole width => width.name
  | float => "float"
  | double => "double"
  | boolean => "boolean"
  | decimal => "decimal"
  | date => "date"

/-- A kind by its name; three names have a short form. -/
def ofName? (name : String) : Option ScalarKind :=
  if name = "string" ∨ name = "text" then some string
  else if name = "integer" ∨ name = "int" then some (whole .integer)
  else if name = "long" then some (whole .long)
  else if name = "float" then some float
  else if name = "double" then some double
  else if name = "boolean" ∨ name = "bool" then some boolean
  else if name = "byte" then some (whole .byte)
  else if name = "short" then some (whole .short)
  else if name = "decimal" then some decimal
  else if name = "date" then some date
  else none

def isIntegral : ScalarKind → Bool
  | whole _ => true
  | _ => false

def isNumeric : ScalarKind → Bool
  | whole _ | float | double | decimal => true
  | _ => false

/-- Only truth values have no natural order. -/
def isOrdered : ScalarKind → Bool
  | boolean => false
  | _ => true

end ScalarKind

/-- What a reference may point to: any resource, or resources of one type. -/
inductive Target
  | any
  | resource (name : String)
  deriving DecidableEq, Repr

namespace Target

def wildcard : String := "*"

def name : Target → String
  | any => wildcard
  | resource name => name

def ofName (name : String) : Target := if name = wildcard then any else resource name

def accepts : Target → String → Bool
  | any, _ => true
  | resource name, type => name == type

/-- The type of the resource pointed to, if there is only one. -/
def resource? : Target → Option String
  | any => none
  | resource name => some name

end Target

inductive ValueType
  | scalar (kind : ScalarKind)
  | enum (members : List String)
  | reference (target : Target)
  | object (typeName : String)
  | list (inner : ValueType)
  | set (inner : ValueType)
  | map (key inner : ValueType)
  /-- Told by the value itself. -/
  | dynamic
  deriving DecidableEq, Repr

namespace ValueType

def string : ValueType := .scalar .string

/-- The number of collection levels. -/
def degree : ValueType → Nat
  | list inner | set inner | map _ inner => 1 + inner.degree
  | _ => 0

def isCollection (t : ValueType) : Bool := 0 < t.degree

def isMap : ValueType → Bool
  | map _ _ => true
  | _ => false

/-- The type under all collection levels. -/
def leaf : ValueType → ValueType
  | list inner | set inner | map _ inner => inner.leaf
  | t => t

/-- The key type of the innermost map. -/
def keyType? : ValueType → Option ValueType
  | map key inner => inner.keyType?.orElse fun _ => some key
  | list inner | set inner => inner.keyType?
  | _ => none

/-- Fit for identifiers and map keys. -/
def isKeyable : ValueType → Bool
  | scalar _ | enum _ | reference _ => true
  | _ => false

def scalarKind? (t : ValueType) : Option ScalarKind :=
  match t.leaf with
  | scalar kind => some kind
  | _ => none

def isString (t : ValueType) : Bool := t.leaf == string

def isObject (t : ValueType) : Bool :=
  match t.leaf with
  | object _ => true
  | _ => false

def target? (t : ValueType) : Option Target :=
  match t.leaf with
  | reference target => some target
  | _ => none

def isReference (t : ValueType) : Bool := t.target?.isSome

def objectType? (t : ValueType) : Option String :=
  match t.leaf with
  | object name => some name
  | _ => none

/-- The container whose properties a value of this type has, if the type tells it. -/
def container? (t : ValueType) : Option String :=
  match t.leaf with
  | object name => some name
  | reference target => target.resource?
  | _ => none

/-- The written form. -/
def expression : ValueType → String
  | scalar kind => kind.name
  | enum members => "enum(" ++ Text.join "|" members ++ ")"
  | reference target => "ref(" ++ target.name ++ ")"
  | object name => "object(" ++ name ++ ")"
  | list inner => "list<" ++ inner.expression ++ ">"
  | set inner => "set<" ++ inner.expression ++ ">"
  | map key inner => "map<" ++ key.expression ++ "," ++ inner.expression ++ ">"
  | dynamic => "dynamic"

theorem degree_leaf (t : ValueType) : t.leaf.degree = 0 := by
  induction t with
  | list inner ih | set inner ih => simpa [leaf] using ih
  | map key inner _ ih => simpa [leaf] using ih
  | _ => rfl

end ValueType

end ResourceQuery
