import ResourceQuery.Schema.PropertyRules
/-!
# Building schemas

A schema is built from a document in four steps. First all containers are registered without
properties, so declarations may refer to each other in any order. Then the properties that look into
no other container are added, then the computed properties of all containers but variants. Last,
variants take over the properties of their bases and get their own computed ones. A document with a
flaw gives the first one met in this order.
-/

namespace ResourceQuery

namespace Container

/-- Add a property behind the others; names are unique, and so is the identifier. -/
def add (c : Container) (p : Property) : Except Fault Container := do
  if p.isId && c.table.identifier?.isSome then
    throw (Fault.of (.property c.name p.name .secondIdentifier))
  match c.table.add p with
  | .ok table => return { c with table := table }
  | .error _ => throw (Fault.of (.property c.name p.name .twice))

/-- Put the properties of the base in front; none of them may be hidden. -/
def inherit (c : Container) (inherited : List Property) : Except Fault Container :=
  match c.table.inherit inherited with
  | .ok table => .ok { c with table := table }
  | .error own => .error (Fault.of (.property c.name own.name .hidesBaseProperty))

end Container

namespace TypeDeclaration

/-- The shape of the container of a declared type. -/
def shape (d : TypeDeclaration) : Except Fault ContainerShape := do
  match d.discriminator with
  | some discriminator =>
    if !Text.isIdentifier discriminator.toList then
      throw (Fault.of (.type discriminator .propertyName))
    if d.variants.isEmpty then throw (Fault.of (.type d.name .noVariants))
    return .polymorphic discriminator (NameSet.ofList (d.variants.map VariantDeclaration.name))
  | none =>
    if d.variants.isEmpty then return .plain
    else throw (Fault.of (.type d.name .noDiscriminator))

end TypeDeclaration

namespace Schema

/-- Add a container without properties. -/
def register (s : Schema) (name : String) (role : ContainerRole) (shape : ContainerShape) :
    Except Fault Schema :=
  if (s.container? name).isSome then .error (Fault.of (.type name .twice))
  else .ok ⟨s.containers ++ [⟨name, role, shape, .empty⟩]⟩

def checkTypeName (name : String) : Except Fault Unit :=
  if Text.isIdentifier name.toList then .ok () else .error (Fault.of (.type name .typeName))

/-- Register a declared type and its variants behind it. -/
def registerType (s : Schema) (d : TypeDeclaration) (role : ContainerRole) :
    Except Fault Schema := do
  checkTypeName d.name
  let s ← s.register d.name role (← d.shape)
  d.variants.foldlM (fun s v => do
    checkTypeName v.name
    s.register v.name role (.variant d.name)) s

/-- Replace a container by what an operation makes of it. -/
def modify (s : Schema) (name : String) (f : Container → Except Fault Container) :
    Except Fault Schema := do
  let containers ← s.containers.mapM fun c => if c.name = name then f c else .ok c
  return ⟨containers⟩

/-- Add the property that a declaration describes to a container. -/
def declare (s : Schema) (name : String) (d : PropertyDeclaration) : Except Fault Schema := do
  let c ← s.container name
  let kind ← d.effectiveKind name
  let property ← d.build s c kind
  s.modify name fun c => c.add property

/-- The property that tells the variants of a polymorphic container apart. -/
def discriminatorOf (c : Container) (name : String) (variants : NameSet) : Property :=
  { name := name
    kind := .discriminator
    type := .enum variants
    settable := true
    nullable := false
    persistence := if c.holdsPersistentData then some ⟨name, none⟩ else none }

/-- Add the discriminator of a container, if it is polymorphic. -/
def addDiscriminator (s : Schema) (name : String) : Except Fault Schema := do
  let c ← s.container name
  match c.shape with
  | .polymorphic discriminator variants =>
    s.modify name fun c => c.add (discriminatorOf c discriminator variants)
  | _ => return s

/-- Add the properties that look into no other container. -/
def declarePlain (s : Schema) (name : String) (properties : List PropertyDeclaration) :
    Except Fault Schema := do
  let s ← s.addDiscriminator name
  (properties.filter fun d => !d.isDeferred).foldlM (fun s d => s.declare name d) s

/-- Add computed properties, dependent references first, as aggregates are computed over them. -/
def declareComputed (s : Schema) (pending : List (String × PropertyDeclaration)) :
    Except Fault Schema :=
  let (references, aggregates) := pending.partition fun entry => entry.2.isDependentReference
  (references ++ aggregates).foldlM (fun s entry => s.declare entry.1 entry.2) s

/-- Let a variant take over the properties of its base. -/
def inheritBase (s : Schema) (c : Container) : Except Fault Schema := do
  match c.base? with
  | some name =>
    let base ← s.container name
    s.modify c.name fun c => c.inherit base.properties
  | none => return s

/-- What holds of a finished container. -/
def checkContainer (c : Container) : Except Fault Unit := do
  if c.isPersistent && c.table.identifier?.isNone then
    throw (Fault.of (.type c.name .persistentWithoutIdentifier))
  if (c.isPolymorphic || c.isVariant) && c.table.discriminator?.isNone then
    throw (Fault.of (.type c.name .polymorphicWithoutDiscriminator))

def isVariant (s : Schema) (name : String) : Bool := (s.container? name).any Container.isVariant

end Schema

namespace SchemaDocument

/-- The declared types with their roles, resources first. -/
def types (d : SchemaDocument) : List (TypeDeclaration × ContainerRole) :=
  d.resources.map (fun t => (t, .resource t.persistent)) ++ d.objects.map fun t => (t, .object)

/-- The declared properties by container, variants behind their base. -/
def properties (d : SchemaDocument) : List (String × List PropertyDeclaration) :=
  d.types.flatMap fun (t, _) =>
    (t.name, t.properties) :: t.variants.map fun v => (v.name, v.properties)

/-- The declarations of computed properties with their containers. -/
def computed (d : SchemaDocument) : List (String × PropertyDeclaration) :=
  d.properties.flatMap fun (name, properties) =>
    (properties.filter PropertyDeclaration.isDeferred).map fun p => (name, p)

/-- The schema that a document describes. -/
def build (d : SchemaDocument) : Except Fault Schema := do
  let skeletons ← d.types.foldlM (fun s entry => s.registerType entry.1 entry.2) Schema.empty
  let plain ← d.properties.foldlM (fun s entry => s.declarePlain entry.1 entry.2) skeletons
  let (ofVariants, ofBases) := d.computed.partition fun entry => plain.isVariant entry.1
  let bases ← plain.declareComputed ofBases
  let inherited ← bases.containers.foldlM Schema.inheritBase bases
  let complete ← inherited.declareComputed ofVariants
  complete.containers.forM Schema.checkContainer
  return complete

end SchemaDocument

end ResourceQuery
