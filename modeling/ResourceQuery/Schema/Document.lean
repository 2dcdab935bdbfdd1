import ResourceQuery.DocumentTree
import ResourceQuery.Json.Basic
import ResourceQuery.Schema.Declaration
/-!
# Reading and writing schema documents

A document is read from a tree of either notation and written as JSON with every field in its
place, also those left to their defaults.
-/

namespace ResourceQuery

open DocumentTree

variable {ν : Type} [DocumentTree ν]

namespace StorageDeclaration

def fieldNames : List String := ["collection", "parent_field", "key_field"]

def ofTree? (tree : ν) : Option StorageDeclaration := do
  let fields ← record? fieldNames tree
  some
    { collection := ← required "collection" text? fields
      parentField := ← optional "parent_field" text? fields
      keyField := ← optional "key_field" text? fields }

def toJson (d : StorageDeclaration) : Json :=
  .object
    [("collection", .string d.collection),
      ("parent_field", Json.ofOption .string d.parentField),
      ("key_field", Json.ofOption .string d.keyField)]

end StorageDeclaration

namespace Aggregate

def fieldNames : List String := ["function", "collection", "source"]

def ofTree? (tree : ν) : Option Aggregate := do
  let fields ← record? fieldNames tree
  some
    { function := ← required "function" (choiceOf AggregateFunction.ofName?) fields
      collection := ← required "collection" text? fields
      source := ← optional "source" text? fields }

def toJson (a : Aggregate) : Json :=
  .object
    [("function", .string a.function.name),
      ("collection", .string a.collection),
      ("source", Json.ofOption .string a.source)]

end Aggregate

namespace RoleTable

def ofTree? (tree : ν) : Option RoleTable := do
  let members ← members? tree
  let rows ← members.mapM fun (name, roles) => do
    some ((← Operation.ofName? name), (← listOf text? roles))
  some (rows.foldl (fun table row => insert row.1 row.2 table) [])

def toJson (table : RoleTable) : Json :=
  .object (table.map fun (op, roles) => (op.name, .array (roles.map .string)))

end RoleTable

namespace PropertyDeclaration

def fieldNames : List String :=
  ["name", "kind", "type", "access", "read_only", "write_only", "fetched_by_default", "nullable",
    "transient", "field", "storage", "reverse", "meta", "aggregate"]

def ofTree? (tree : ν) : Option PropertyDeclaration := do
  let fields ← record? fieldNames tree
  some
    { name := ← required "name" text? fields
      kind := ← optional "kind" (choiceOf DeclaredKind.ofName?) fields
      type := ← required "type" text? fields
      access := ← withDefault "access" [] RoleTable.ofTree? fields
      readOnly := ← withDefault "read_only" false truth? fields
      writeOnly := ← withDefault "write_only" false truth? fields
      fetchedByDefault := ← withDefault "fetched_by_default" true truth? fields
      nullable := ← withDefault "nullable" true truth? fields
      transient := ← withDefault "transient" false truth? fields
      field := ← optional "field" text? fields
      storage := ← optional "storage" StorageDeclaration.ofTree? fields
      reverse := ← optional "reverse" text? fields
      stamp := ← optional "meta" (choiceOf Stamp.ofName?) fields
      aggregate := ← optional "aggregate" Aggregate.ofTree? fields }

def toJson (d : PropertyDeclaration) : Json :=
  .object
    [("name", .string d.name),
      ("kind", Json.ofOption (fun kind => .string kind.name) d.kind),
      ("type", .string d.type),
      ("access", RoleTable.toJson d.access),
      ("read_only", .bool d.readOnly),
      ("write_only", .bool d.writeOnly),
      ("fetched_by_default", .bool d.fetchedByDefault),
      ("nullable", .bool d.nullable),
      ("transient", .bool d.transient),
      ("field", Json.ofOption .string d.field),
      ("storage", Json.ofOption StorageDeclaration.toJson d.storage),
      ("reverse", Json.ofOption .string d.reverse),
      ("meta", Json.ofOption (fun stamp => .string stamp.name) d.stamp),
      ("aggregate", Json.ofOption Aggregate.toJson d.aggregate)]

end PropertyDeclaration

namespace VariantDeclaration

def fieldNames : List String := ["name", "properties"]

def ofTree? (tree : ν) : Option VariantDeclaration := do
  let fields ← record? fieldNames tree
  some
    { name := ← required "name" text? fields
      properties := ← withDefault "properties" [] (listOf PropertyDeclaration.ofTree?) fields }

def toJson (d : VariantDeclaration) : Json :=
  .object
    [("name", .string d.name),
      ("properties", .array (d.properties.map PropertyDeclaration.toJson))]

end VariantDeclaration

namespace TypeDeclaration

def fieldNames : List String := ["name", "persistent", "discriminator", "properties", "variants"]

def ofTree? (tree : ν) : Option TypeDeclaration := do
  let fields ← record? fieldNames tree
  some
    { name := ← required "name" text? fields
      persistent := ← withDefault "persistent" true truth? fields
      discriminator := ← optional "discriminator" text? fields
      properties := ← withDefault "properties" [] (listOf PropertyDeclaration.ofTree?) fields
      variants := ← withDefault "variants" [] (listOf VariantDeclaration.ofTree?) fields }

def toJson (d : TypeDeclaration) : Json :=
  .object
    [("name", .string d.name),
      ("persistent", .bool d.persistent),
      ("discriminator", Json.ofOption .string d.discriminator),
      ("properties", .array (d.properties.map PropertyDeclaration.toJson)),
      ("variants", .array (d.variants.map VariantDeclaration.toJson))]

end TypeDeclaration

namespace SchemaDocument

def fieldNames : List String := ["resources", "objects"]

def ofTree? (tree : ν) : Option SchemaDocument := do
  let fields ← record? fieldNames tree
  some
    { resources := ← withDefault "resources" [] (listOf TypeDeclaration.ofTree?) fields
      objects := ← withDefault "objects" [] (listOf TypeDeclaration.ofTree?) fields }

def toJson (d : SchemaDocument) : Json :=
  .object
    [("resources", .array (d.resources.map TypeDeclaration.toJson)),
      ("objects", .array (d.objects.map TypeDeclaration.toJson))]

end SchemaDocument

end ResourceQuery
