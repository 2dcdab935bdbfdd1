import ResourceQuery.Schema.Property
/-!
# Containers

The properties of a resource type, of a type of embedded objects, or of a variant of a polymorphic
type. Containers name each other; a variant lists the properties of its base in front of its own.
While a schema is built, properties are looked up at the positions that are kept with them.
-/

namespace ResourceQuery

/-- Only resources are pointed to by references; objects are stored inside their owner. -/
inductive ContainerRole
  | resource (persistent : Bool)
  | object
  deriving DecidableEq, Repr

inductive ContainerShape
  | plain
  /-- Variants have containers of their own, told apart by the discriminator. -/
  | polymorphic (discriminator : String) (variants : NameSet)
  | variant (base : String)
  deriving DecidableEq, Repr

/-- Where properties stand: each by its name, and the identifier and the discriminator. -/
structure Positions where
  named : NameMap Nat
  identifier : Option Nat
  discriminator : Option Nat
  deriving DecidableEq, Repr

namespace Positions

def empty : Positions := ⟨[], none, none⟩

/-- Keep where a property stands. -/
def note (positions : Positions) (p : Property) (position : Nat) : Positions where
  named := NameMap.insert p.name position positions.named
  identifier := if p.isId then some position else positions.identifier
  discriminator := if p.isDiscriminator then some position else positions.discriminator

/-- The positions of properties that are added one after the other. -/
def ofList (properties : List Property) : Positions :=
  properties.zipIdx.foldl (fun positions entry => positions.note entry.1 entry.2) empty

theorem ofList_concat (properties : List Property) (p : Property) :
    ofList (properties ++ [p]) = (ofList properties).note p properties.length := by
  simp [ofList, List.zipIdx_append]

end Positions

/-- Properties in the order of their declarations, with their positions. -/
structure PropertyTable where
  properties : List Property
  positions : Positions
  kept : positions = .ofList properties

namespace PropertyTable

def ofList (properties : List Property) : PropertyTable := ⟨properties, .ofList properties, rfl⟩

instance : Coe (List Property) PropertyTable := ⟨ofList⟩

def empty : PropertyTable := ofList []

@[simp] theorem ofList_properties (properties : List Property) :
    (ofList properties).properties = properties := rfl

@[ext]
theorem ext {t u : PropertyTable} (h : t.properties = u.properties) : t = u := by
  obtain ⟨properties, _, rfl⟩ := t
  obtain ⟨others, _, rfl⟩ := u
  cases h
  rfl

instance : DecidableEq PropertyTable := fun t u =>
  decidable_of_iff (t.properties = u.properties) ⟨ext, congrArg properties⟩

instance : Repr PropertyTable := ⟨fun t => reprPrec t.properties⟩

/-- The property of a name, at its position. -/
def named? (t : PropertyTable) (name : String) : Option Property :=
  (NameMap.find? name t.positions.named).bind fun position => t.properties[position]?

def identifier? (t : PropertyTable) : Option Property :=
  t.positions.identifier.bind fun position => t.properties[position]?

def discriminator? (t : PropertyTable) : Option Property :=
  t.positions.discriminator.bind fun position => t.properties[position]?

/-- Add a property behind the others; it is given back if its name is taken. -/
def add (t : PropertyTable) (p : Property) : Except Property PropertyTable :=
  if NameMap.contains p.name t.positions.named then .error p
  else .ok ⟨t.properties ++ [p], t.positions.note p t.properties.length, by
    rw [Positions.ofList_concat, t.kept]⟩

/-- Put other properties in front, with all positions anew. -/
def inherit (t : PropertyTable) (inherited : List Property) : Except Property PropertyTable :=
  (inherited ++ t.properties).foldlM add empty

end PropertyTable

structure Container where
  name : String
  role : ContainerRole
  shape : ContainerShape
  table : PropertyTable
  deriving DecidableEq, Repr

namespace Container

def properties (c : Container) : List Property := c.table.properties

@[simp] theorem mk_properties (name : String) (role : ContainerRole) (shape : ContainerShape)
    (table : PropertyTable) : (mk name role shape table).properties = table.properties := rfl

def isResource (c : Container) : Bool :=
  match c.role with
  | .resource _ => true
  | .object => false

def isPersistent (c : Container) : Bool := c.role == .resource true

/-- The properties are stored: those of persistent resources and of embedded objects. -/
def holdsPersistentData (c : Container) : Bool :=
  match c.role with
  | .resource persistent => persistent
  | .object => true

def variants (c : Container) : NameSet :=
  match c.shape with
  | .polymorphic _ variants => variants
  | _ => []

def isPolymorphic (c : Container) : Bool :=
  match c.shape with
  | .polymorphic .. => true
  | _ => false

def base? (c : Container) : Option String :=
  match c.shape with
  | .variant base => some base
  | _ => none

def isVariant (c : Container) : Bool := c.base?.isSome

def property? (c : Container) (name : String) : Option Property :=
  c.properties.find? fun p => p.name == name

def identifier? (c : Container) : Option Property := c.properties.find? Property.isId

def discriminator? (c : Container) : Option Property := c.properties.find? Property.isDiscriminator

/-- What the container is, in words. -/
def roleName (c : Container) : String :=
  match c.role with
  | .resource true => "resource"
  | .resource false => "transient resource"
  | .object => "object"

end Container

end ResourceQuery
