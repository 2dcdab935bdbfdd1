import ResourceQuery.Session.Input
import ResourceQuery.Session.Write
/-!
# Reading values

A value is read under a type. Every property of an object has to be known and, if it can be set, the
principal has to be permitted to submit it; what cannot be set is skipped. Input under the dynamic
type is dropped, as nothing tells what it means.
-/

namespace ResourceQuery

/-- The first of each group of equal values. -/
def Value.distinct : List Value → List Value → List Value
  | kept, [] => kept
  | kept, value :: rest =>
    if kept.any fun other => other.same value then Value.distinct kept rest
    else Value.distinct (kept ++ [value]) rest

namespace Instance

/-- The text of the identity of an object, if it has an identifier. -/
def identity? (i : Instance) (c : Container) : Option String := do
  let id ← i.get? (← c.identifier?).name
  if id.isNull then none else some (ResourceRef.encode ⟨c.name, id⟩)

end Instance

namespace Reading

/-- The object itself, or the one known with its identity. -/
def interned (c : Container) (object : Instance) : Reading Value := do
  let input ← get
  match object.identity? c, input.identities with
  | some key, some identities =>
    let (value, identities) := identities.intern key (.ofInstance object)
    set { input with identities := some identities }
    return value
  | _, _ => return .ofInstance object

/-- A null, or what is read if there is none. -/
def orNull (read : Reading Value) : Reading Value := do
  if ← JsonInput.readNull then return .null else read

end Reading

namespace Schema

/-- Open an object of a declared type; the answer is its container. -/
def openObject (s : Schema) (typeName : String) : Reading Container := do
  let declared ← Reading.lift (s.container typeName)
  let tag ← JsonInput.beginObject (declared.discriminator?.map Property.name)
  match tag with
  | some tag => Reading.lift (s.concrete declared tag)
  | none => return declared

/-- A known property that the principal may submit, or nothing for one that cannot be set. -/
def submittable (principal : Option Principal) (c : Container) (name : String) :
    Except Fault (Option Property) :=
  match c.property? name with
  | none => .error (Fault.of (.data (.unknownProperty name c.name)))
  | some p =>
    if !p.settable then .ok none
    else if p.access.permits .submit principal then .ok (some p)
    else .error (Fault.of (.denied .submit name))

end Schema

namespace ValueType

mutual

/-- Read a value that is not null. The first number bounds the steps. -/
def readWithin (s : Schema) (principal : Option Principal) : Nat → ValueType → Reading Value
  | 0, _ => JsonInput.refuse (.endOfInput "value")
  | steps + 1, type =>
    match type with
    | .scalar kind => JsonInput.readScalar kind
    | .enum _ | .reference _ => do
      let text ← JsonInput.readText
      Reading.lift (type.parseText s text)
    | .object typeName => do
      let container ← s.openObject typeName
      let content ← readProperties s principal steps container (.empty container.name)
      JsonInput.endObject
      Reading.interned container content
    | .list inner => do
      JsonInput.beginCollection
      let items ← readItems s principal steps inner
      JsonInput.endCollection
      return .list items
    | .set inner => do
      JsonInput.beginCollection
      let items ← readItems s principal steps inner
      JsonInput.endCollection
      return .set (Value.distinct [] items)
    | .map key inner => do
      JsonInput.beginMap
      let entries ← readEntries s principal steps key inner
      JsonInput.endMap
      return .map entries
    | .dynamic => do
      JsonInput.skip
      return .null

/-- Read the properties that are left of an object. -/
def readProperties (s : Schema) (principal : Option Principal) :
    Nat → Container → Instance → Reading Instance
  | 0, _, _ => JsonInput.refuse (.endOfInput "value")
  | steps + 1, c, content => do
    match ← JsonInput.nextName with
    | none => return content
    | some name =>
      match ← Reading.lift (Schema.submittable principal c name) with
      | none =>
        JsonInput.skip
        readProperties s principal steps c content
      | some p =>
        JsonInput.withIdentities fun identities => identities.enter name
        let value ← Reading.orNull (readWithin s principal steps p.type)
        JsonInput.withIdentities IdentityCache.exit
        readProperties s principal steps c (content.set name value)

/-- Read the elements that are left of a collection. -/
def readItems (s : Schema) (principal : Option Principal) :
    Nat → ValueType → Reading (List Value)
  | 0, _ => JsonInput.refuse (.endOfInput "value")
  | steps + 1, type => do
    if ← JsonInput.nextElement then
      let item ← Reading.orNull (readWithin s principal steps type)
      return item :: (← readItems s principal steps type)
    else return []

/-- Read the entries that are left of a map. -/
def readEntries (s : Schema) (principal : Option Principal) :
    Nat → ValueType → ValueType → Reading (List (Value × Value))
  | 0, _, _ => JsonInput.refuse (.endOfInput "value")
  | steps + 1, keyType, type => do
    match ← JsonInput.nextName with
    | none => return []
    | some text =>
      let key ← Reading.lift (keyType.parseText s text)
      let item ← Reading.orNull (readWithin s principal steps type)
      return (key, item) :: (← readEntries s principal steps keyType type)

end

/-- Read a value that is not null. All steps but the last of a structure take a value or a name. -/
def read (type : ValueType) (s : Schema) (principal : Option Principal) : Reading Value := do
  readWithin s principal (2 * (← get).weight + 2) type

end ValueType

end ResourceQuery
