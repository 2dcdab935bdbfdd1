import ResourceQuery.Access
/-!
# Schema documents

The declarations that a schema is built from: resource types and embedded object types with their
properties. A type with a discriminator is polymorphic and lists its variants.
-/

namespace ResourceQuery

/-- Stamps kept by the store. -/
inductive Stamp
  | version
  | created
  | modified
  deriving DecidableEq, Repr

namespace Stamp

def name : Stamp → String
  | version => "version"
  | created => "created"
  | modified => "modified"

def all : List Stamp := [version, created, modified]

def ofName? (name : String) : Option Stamp := all.find? fun s => s.name == name

end Stamp

inductive AggregateFunction
  | count
  | countDistinct
  | sum
  | min
  | max
  | avg
  deriving DecidableEq, Repr

namespace AggregateFunction

def name : AggregateFunction → String
  | count => "count"
  | countDistinct => "count_distinct"
  | sum => "sum"
  | min => "min"
  | max => "max"
  | avg => "avg"

def all : List AggregateFunction := [count, countDistinct, sum, min, max, avg]

def ofName? (name : String) : Option AggregateFunction := all.find? fun f => f.name == name

/-- The function needs no source property. -/
def countsRows : AggregateFunction → Bool
  | count => true
  | _ => false

end AggregateFunction

/-- A computed property: a function over a collection property, applied to a source property of the
elements. -/
structure Aggregate where
  function : AggregateFunction
  collection : String
  source : Option String
  deriving DecidableEq, Repr

/-- Where a collection property is stored apart from its owner. -/
structure StorageDeclaration where
  collection : String
  parentField : Option String
  keyField : Option String
  deriving DecidableEq, Repr

inductive DeclaredKind
  | id
  | simple
  | object
  | reference
  | dependentReference
  | stamp
  | aggregate
  | dependentAggregate
  deriving DecidableEq, Repr

namespace DeclaredKind

def name : DeclaredKind → String
  | id => "id"
  | simple => "simple"
  | object => "object"
  | reference => "reference"
  | dependentReference => "dependent_reference"
  | stamp => "meta"
  | aggregate => "aggregate"
  | dependentAggregate => "dependent_aggregate"

def all : List DeclaredKind :=
  [id, simple, object, reference, dependentReference, stamp, aggregate, dependentAggregate]

def ofName? (name : String) : Option DeclaredKind := all.find? fun k => k.name == name

end DeclaredKind

structure PropertyDeclaration where
  name : String
  kind : Option DeclaredKind := none
  type : String
  access : RoleTable := []
  readOnly : Bool := false
  writeOnly : Bool := false
  fetchedByDefault : Bool := true
  nullable : Bool := true
  transient : Bool := false
  field : Option String := none
  storage : Option StorageDeclaration := none
  reverse : Option String := none
  stamp : Option Stamp := none
  aggregate : Option Aggregate := none
  deriving DecidableEq, Repr

structure VariantDeclaration where
  name : String
  properties : List PropertyDeclaration
  deriving DecidableEq, Repr

structure TypeDeclaration where
  name : String
  persistent : Bool := true
  discriminator : Option String := none
  properties : List PropertyDeclaration := []
  variants : List VariantDeclaration := []
  deriving DecidableEq, Repr

structure SchemaDocument where
  resources : List TypeDeclaration
  objects : List TypeDeclaration
  deriving DecidableEq, Repr

end ResourceQuery
