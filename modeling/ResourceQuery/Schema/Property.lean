import ResourceQuery.Fault
import ResourceQuery.ValueType.Basic
/-!
# Properties

What a schema knows of a declared property: its kind and type, who may use it and how it is stored.
Dependent references and aggregates are computed from stored data; together with stamps they are
never set by a caller.
-/

namespace ResourceQuery

inductive PropertyKind
  | id
  | simple
  | object
  | reference
  /-- Kept only as the reference `reverse` of the target. -/
  | dependentReference (reverse : String)
  | stamp (stamp : Stamp)
  | aggregate (aggregate : Aggregate)
  | dependentAggregate (aggregate : Aggregate)
  /-- The name of the variant of a polymorphic object. -/
  | discriminator
  deriving DecidableEq, Repr

namespace PropertyKind

def name : PropertyKind → String
  | id => "id"
  | simple => "simple"
  | object => "object"
  | reference => "reference"
  | dependentReference _ => "dependent reference"
  | stamp _ => "meta"
  | aggregate _ => "aggregate"
  | dependentAggregate _ => "dependent aggregate"
  | discriminator => "type"

def aggregate? : PropertyKind → Option Aggregate
  | aggregate a | dependentAggregate a => some a
  | _ => none

/-- Derived from stored data and not stored itself. -/
def isComputed : PropertyKind → Bool
  | dependentReference _ | aggregate _ | dependentAggregate _ => true
  | _ => false

/-- A caller may give a value. -/
def isGiven : PropertyKind → Bool
  | id | simple | object | reference | discriminator => true
  | _ => false

end PropertyKind

/-- The separate place of a collection. -/
structure CollectionStorage where
  name : String
  /-- The field that links an element to its owner. -/
  parentField : String
  /-- The field that holds the key of a map entry. -/
  keyField : Option String
  deriving DecidableEq, Repr

structure Persistence where
  field : String
  collection : Option CollectionStorage
  deriving DecidableEq, Repr

structure Property where
  name : String
  kind : PropertyKind
  type : ValueType
  access : AccessRules := ⟨[]⟩
  gettable : Bool := true
  settable : Bool
  fetchedByDefault : Bool := true
  nullable : Bool := true
  persistence : Option Persistence := none
  deriving DecidableEq, Repr

namespace Property

def isId (p : Property) : Bool := p.kind == .id

def isDiscriminator (p : Property) : Bool := p.kind == .discriminator

def isObject (p : Property) : Bool := p.kind == .object

def isReference (p : Property) : Bool :=
  match p.kind with
  | .reference | .dependentReference _ => true
  | _ => false

def isDependentReference (p : Property) : Bool :=
  match p.kind with
  | .dependentReference _ => true
  | _ => false

def isSimple (p : Property) : Bool :=
  match p.kind with
  | .id | .simple | .stamp _ | .discriminator => true
  | _ => false

def aggregate? (p : Property) : Option Aggregate := p.kind.aggregate?

def isAggregate (p : Property) : Bool := p.aggregate?.isSome

def isComputed (p : Property) : Bool := p.kind.isComputed

def isPersisted (p : Property) : Bool := p.persistence.isSome

/-- A path may continue behind the property. -/
def isNavigable (p : Property) : Bool := p.isObject || p.isReference

/-- The container whose properties the values have, if the type tells it. -/
def target? (p : Property) : Option String := p.type.container?

/-- The name of the stored field. -/
def field (p : Property) : Except Fault String :=
  match p.persistence with
  | some persistence => .ok persistence.field
  | none => .error (Fault.of (.path p.name (.notPersisted p.name)))

def describe (p : Property) : String :=
  p.name ++ ": " ++ p.type.expression ++ " (" ++ p.kind.name ++ ")"

end Property

end ResourceQuery
