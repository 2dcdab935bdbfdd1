import ResourceQuery.Schema.Basic
import ResourceQuery.Schema.Declaration
import ResourceQuery.Text.Identifier
import ResourceQuery.ValueType.Expression
/-!
# Rules for declared properties

What a declaration has to satisfy to become a property of its container, checked in a fixed order
against the schema as built so far. Dependent references and aggregates look into other containers.
-/

namespace ResourceQuery

namespace PropertyDeclaration

/-- A flaw in the declaration of this property in a container. -/
def refuse {α : Type} (d : PropertyDeclaration) (container : String) (flaw : Fault.PropertyFlaw) :
    Except Fault α :=
  .error (Fault.of (.property container d.name flaw))

/-- The declared type. -/
def valueType (d : PropertyDeclaration) (container : String) : Except Fault ValueType :=
  match ValueType.parse d.type with
  | .ok type => .ok type
  | .error _ => d.refuse container (.typeExpression (String.ofList (Text.trim d.type.toList)))

/-- The declared kind; without one the leaf of the type decides. -/
def effectiveKind (d : PropertyDeclaration) (container : String) : Except Fault DeclaredKind := do
  match d.kind with
  | some kind => return kind
  | none =>
    match (← d.valueType container).leaf with
    | .object _ => return .object
    | .reference _ => return .reference
    | _ => return .simple

/-- The property is computed over others and is built after them. -/
def isDeferred (d : PropertyDeclaration) : Bool :=
  match d.kind with
  | some .dependentReference | some .aggregate | some .dependentAggregate => true
  | _ => false

def isDependentReference (d : PropertyDeclaration) : Bool := d.kind == some .dependentReference

/-- Every object and reference in the type is registered as such, and map keys are keyable. -/
def checkNames (d : PropertyDeclaration) (s : Schema) (container : String) :
    ValueType → Except Fault Unit
  | .object name =>
    match s.container? name with
    | some c => if c.isResource then d.refuse container (.resourceEmbedded name) else .ok ()
    | none => d.refuse container (.unknownObject name)
  | .reference .any => .ok ()
  | .reference (.resource name) =>
    if (s.container? name).any Container.isResource then .ok ()
    else d.refuse container (.unknownResource name)
  | .enum members => if members.isEmpty then d.refuse container .emptyEnum else .ok ()
  | .list inner | .set inner => d.checkNames s container inner
  | .map key inner => do
    if !key.isKeyable then d.refuse container (.mapKey key.expression)
    d.checkNames s container key
    d.checkNames s container inner
  | .scalar _ | .dynamic => .ok ()

/-- A reference whose link is kept by the target, in a reference back to this container or its
base. -/
def dependentReference (d : PropertyDeclaration) (s : Schema) (c : Container) (type : ValueType) :
    Except Fault PropertyKind := do
  let some reverse := d.reverse | d.refuse c.name .reverseMissing
  let some (.resource target) := type.target? | d.refuse c.name .dependentType
  if 1 < type.degree then d.refuse c.name .dependentType
  let resource ← s.resource target
  let some back := resource.property? reverse | d.refuse c.name (.reverseUnknown target reverse)
  let source := c.base?.getD c.name
  let pointsBack := back.kind == .reference && !back.type.isCollection &&
    back.type.target?.any fun t => t == .resource source || t == .resource c.name
  if !pointsBack then d.refuse c.name (.reverseElsewhere target reverse source)
  if !back.isPersisted then d.refuse c.name (.reverseNotPersisted target reverse)
  return .dependentReference reverse

/-- The kinds of the source and the receiving property fit the function. -/
def checkFunction (d : PropertyDeclaration) (container : String) (function : AggregateFunction)
    (source : Option ScalarKind) (receiving : ScalarKind) : Except Fault Unit :=
  match function, source with
  | .count, _ | .countDistinct, some _ =>
    if receiving.isNumeric then .ok () else d.refuse container (.numericResult function)
  | .min, some kind | .max, some kind =>
    if kind = receiving then .ok ()
    else d.refuse container (.resultType function kind.name receiving.name)
  | .sum, some kind | .avg, some kind =>
    if kind.isNumeric && receiving.isNumeric then .ok ()
    else d.refuse container (.numericValues function)
  | _, none => d.refuse container (.sourceMissing function)

/-- The kind of a source property of an aggregate. -/
def sourceKind (d : PropertyDeclaration) (container : String) (element : Container) :
    Option String → Except Fault (Option ScalarKind)
  | none => .ok none
  | some source =>
    match element.property? source with
    | none => d.refuse container (.sourceUnknown element.name source)
    | some p =>
      match p.type with
      | .scalar kind => .ok (some kind)
      | _ => d.refuse container (.sourceType source)

/-- A function over a collection of this container, applied to a property of the elements. -/
def aggregateOver (d : PropertyDeclaration) (s : Schema) (c : Container) (dependent : Bool)
    (type : ValueType) : Except Fault PropertyKind := do
  let some aggregate := d.aggregate | d.refuse c.name .aggregateMissing
  if !d.nullable then d.refuse c.name .aggregateNotNullable
  let .scalar receiving := type | d.refuse c.name .aggregateType
  let some collection := c.property? aggregate.collection
    | d.refuse c.name (.collectionUnknown aggregate.collection)
  if dependent then
    if !collection.isDependentReference then
      d.refuse c.name (.collectionNotDependent aggregate.collection)
  else if !collection.type.isCollection || !(collection.isObject || collection.kind == .reference)
  then d.refuse c.name (.collectionNotObjects aggregate.collection)
  let some target := collection.target?
    | d.refuse c.name (.elementsWithoutProperties aggregate.collection)
  let element ← s.container target
  let source ← d.sourceKind c.name element aggregate.source
  d.checkFunction c.name aggregate.function source receiving
  return if dependent then .dependentAggregate aggregate else .aggregate aggregate

/-- Which types a stamp may have. -/
def stampFits : Stamp → ValueType → Bool
  | .version, type => type == .scalar (.whole .long) || type == .scalar (.whole .integer)
  | .created, type | .modified, type => type == .scalar .date

def propertyKind (d : PropertyDeclaration) (s : Schema) (c : Container) (kind : DeclaredKind)
    (type : ValueType) : Except Fault PropertyKind := do
  match kind with
  | .id =>
    if !c.isResource || c.isVariant then d.refuse c.name .identifierOutsideResource
    if !type.isKeyable then d.refuse c.name .identifierType
    return .id
  | .simple =>
    if type.isObject || type.isReference then d.refuse c.name .simpleType
    return .simple
  | .object => if type.isObject then return .object else d.refuse c.name .objectType
  | .reference => if type.isReference then return .reference else d.refuse c.name .referenceType
  | .stamp =>
    let some stamp := d.stamp | d.refuse c.name .stampMissing
    if !stampFits stamp type then d.refuse c.name .stampType
    return .stamp stamp
  | .dependentReference => d.dependentReference s c type
  | .aggregate => d.aggregateOver s c false type
  | .dependentAggregate => d.aggregateOver s c true type

/-- The separate storage of a collection, with a key field if and only if it is a map. -/
def collectionStorage (d : PropertyDeclaration) (container : String) (type : ValueType)
    (storage : StorageDeclaration) : Except Fault CollectionStorage := do
  if type.degree ≠ 1 then d.refuse container .storageOfSingle
  let some parentField := storage.parentField | d.refuse container .storageWithoutParent
  if type.isMap && storage.keyField.isNone then d.refuse container .mapWithoutKeyField
  if !type.isMap && storage.keyField.isSome then d.refuse container .keyFieldWithoutMap
  return ⟨storage.collection, parentField, storage.keyField⟩

/-- How the property is stored: not at all if it is transient or computed, or if its container holds
no persistent data. -/
def persistence (d : PropertyDeclaration) (c : Container) (kind : PropertyKind) (type : ValueType) :
    Except Fault (Option Persistence) := do
  if c.holdsPersistentData && !d.transient && !kind.isComputed then
    if 1 < type.degree then d.refuse c.name .nestedCollections
    let collection ← d.storage.mapM (d.collectionStorage c.name type)
    return some ⟨d.field.getD d.name, collection⟩
  else
    if d.storage.isSome then d.refuse c.name .storageNotPersisted
    return none

/-- The property that a declaration describes, by the schema as built so far. -/
def build (d : PropertyDeclaration) (s : Schema) (c : Container) (kind : DeclaredKind) :
    Except Fault Property := do
  if !Text.isIdentifier d.name.toList then throw (Fault.of (.type d.name .propertyName))
  let type ← d.valueType c.name
  d.checkNames s c.name type
  let kind ← d.propertyKind s c kind type
  let persistence ← d.persistence c kind type
  if !d.fetchedByDefault && !d.nullable then d.refuse c.name .lazyNotNullable
  return {
      name := d.name
      kind := kind
      type := type
      access := AccessRules.ofTable d.access
      gettable := !d.writeOnly
      settable := kind.isGiven && !d.readOnly
      fetchedByDefault := d.fetchedByDefault
      nullable := d.nullable
      persistence := persistence }

end PropertyDeclaration

end ResourceQuery
