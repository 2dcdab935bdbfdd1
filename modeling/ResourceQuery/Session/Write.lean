import ResourceQuery.Projection
import ResourceQuery.Schema.Reference
import ResourceQuery.Session.Output
/-!
# Writing values

A value is written under a type; under the dynamic type the value tells its own. Of an object only
those properties are written that can be got, that the principal may see and that the projection
names. What the object holds besides is not looked at.
-/

namespace ResourceQuery

structure WriteOptions where
  /-- Leave out properties without a value. -/
  skipNulls : Bool := false
  principal : Option Principal := none
  projection : Option Projection := none

/-- A property value of an object, ready to be written under a type and at a path. -/
structure WritableProperty where
  isNull : Bool
  write : ValueType → String → Writing Unit

namespace Writing

def lift {α : Type} (outcome : Except Fault α) : Writing α :=
  match outcome with
  | .ok value => return value
  | .error fault => throw fault

end Writing

namespace WriteOptions

/-- The path of a property of what stands at a path. -/
def propertyPath (path name : String) : String := if path.isEmpty then name else path ++ "." ++ name

/-- The property is written if the object has it. -/
def admits (o : WriteOptions) (path : String) (p : Property) : Bool :=
  p.gettable && p.access.permits .see o.principal &&
    o.projection.all fun projection => projection.isWritten path p.fetchedByDefault

end WriteOptions

/-- The container of an object: the declared one, or the variant of that name. -/
def Schema.concrete (s : Schema) (declared : Container) (typeName : String) :
    Except Fault Container :=
  let refuse : Except Fault Container :=
    .error (Fault.of (.data (.wrongObject typeName declared.name)))
  if declared.name = typeName then .ok declared
  else if declared.variants.contains typeName then
    match s.container? typeName with
    | some variant => .ok variant
    | none => refuse
  else refuse

namespace Value

/-- Write what has a text or is a plain number, under any type. -/
def writeLeaf (value : Value) (type : ValueType) : Writing Unit :=
  let refuse : Writing Unit :=
    throw (ScalarKind.conversionFault value.describe type.expression none)
  match type with
  | .scalar kind => do JsonOutput.writeLeaf (← Writing.lift (kind.coerce value))
  | .enum _ => do JsonOutput.writeText (← Writing.lift (type.toText value))
  | .reference target =>
    match value.ref? with
    | some r => if target.accepts r.resourceType then JsonOutput.writeText r.encode else refuse
    | none => refuse
  | _ => refuse

/-- Write a property of an object, unless it is to be left out. -/
def writeProperty (o : WriteOptions) (path : String) (values : NameMap WritableProperty)
    (p : Property) : Writing Unit := do
  let path := WriteOptions.propertyPath path p.name
  if o.admits path p then
    match values.find? p.name with
    | none => return ()
    | some value =>
      if value.isNull && o.skipNulls then return ()
      JsonOutput.setName p.name
      value.write p.type path

/-- Write an object of a declared type, property by property in the order of the container. -/
def writeObject (s : Schema) (o : WriteOptions) (declaredName typeName path : String)
    (values : NameMap WritableProperty) : Writing Unit := do
  let declared ← Writing.lift (s.container declaredName)
  let container ← Writing.lift (s.concrete declared typeName)
  let discriminator := declared.discriminator?.map Property.name
  JsonOutput.beginObject
    (if container.isVariant then discriminator.map fun name => (name, container.name) else none)
  (container.properties.filter fun p => discriminator ≠ some p.name).forM
    (writeProperty o path values)
  JsonOutput.endObject

/-- The text of a map key. -/
def keyText (type : ValueType) (key : Value) : Except Fault String :=
  match type with
  | .dynamic => key.toText
  | _ => type.toText key

mutual

def writeAt (s : Schema) (o : WriteOptions) (value : Value) (declared : ValueType)
    (path : String) : Writing Unit :=
  let type := if declared = .dynamic then ValueType.ofValue value else declared
  match value with
  | .null => JsonOutput.writeNull
  | .object typeName properties =>
    match type with
    | .object name => writeObject s o name typeName path (writableProperties s o properties)
    | _ => (Value.object typeName properties).writeLeaf type
  | .list items =>
    match type with
    | .list inner | .set inner => do
      JsonOutput.beginCollection
      writeItems s o items inner path
      JsonOutput.endCollection
    | _ => (Value.list items).writeLeaf type
  | .set items =>
    match type with
    | .list inner | .set inner => do
      JsonOutput.beginCollection
      writeItems s o items inner path
      JsonOutput.endCollection
    | _ => (Value.set items).writeLeaf type
  | .map entries =>
    match type with
    | .map key inner => do
      JsonOutput.beginMap
      writeEntries s o entries key inner path
      JsonOutput.endMap
    | _ => (Value.map entries).writeLeaf type
  | leaf => leaf.writeLeaf type

def writeItems (s : Schema) (o : WriteOptions) (items : List Value) (type : ValueType)
    (path : String) : Writing Unit :=
  match items with
  | [] => return ()
  | item :: rest => do
    writeAt s o item type path
    writeItems s o rest type path

def writeEntries (s : Schema) (o : WriteOptions) (entries : List (Value × Value))
    (keyType type : ValueType) (path : String) : Writing Unit :=
  match entries with
  | [] => return ()
  | (key, item) :: rest => do
    JsonOutput.setName (← Writing.lift (keyText keyType key))
    writeAt s o item type path
    writeEntries s o rest keyType type path

def writableProperties (s : Schema) (o : WriteOptions) :
    List (String × Value) → NameMap WritableProperty
  | [] => []
  | (name, value) :: rest =>
    (name, ⟨value.isNull, writeAt s o value⟩) :: writableProperties s o rest

end

end Value

namespace ValueType

/-- Write a value of the type. -/
def write (type : ValueType) (s : Schema) (o : WriteOptions) (value : Value) : Writing Unit :=
  value.writeAt s o type ""

/-- The document of a value of the type. -/
def document (type : ValueType) (s : Schema) (o : WriteOptions) (value : Value) :
    Except Fault Json :=
  match (type.write s o value).run.run JsonOutput.start with
  | (.ok (), output) => output.finish
  | (.error fault, _) => .error fault

end ValueType

end ResourceQuery
