import ResourceQuery.DocumentTree
import ResourceQuery.Fault
import ResourceQuery.Json.Basic
import ResourceQuery.Text.Identifier
/-!
# Configuration of the query language

The names of the parameters and the limits on a request. Names must not clash, so the language can
be mounted next to other parameters.
-/

namespace ResourceQuery

structure Configuration where
  /-- The root key of the main filter. -/
  filterKey : String := "f"
  orderParam : String := "order"
  propertiesParam : String := "fields"
  referencesParam : String := "refs"
  rangeParam : String := "range"
  /-- The deepest nesting of filter groups, counting the root. -/
  maxGroupDepth : Nat := 8
  maxOperands : Nat := 64
  deriving DecidableEq, Repr

namespace Configuration

open DocumentTree

def fieldNames : List String :=
  ["filter_key", "order_param", "properties_param", "references_param", "range_param",
    "max_group_depth", "max_operands"]

def ofTree? {ν : Type} [DocumentTree ν] (tree : ν) : Option Configuration := do
  let fields ← record? fieldNames tree
  let standard : Configuration := {}
  some
    { filterKey := ← withDefault "filter_key" standard.filterKey text? fields
      orderParam := ← withDefault "order_param" standard.orderParam text? fields
      propertiesParam := ← withDefault "properties_param" standard.propertiesParam text? fields
      referencesParam := ← withDefault "references_param" standard.referencesParam text? fields
      rangeParam := ← withDefault "range_param" standard.rangeParam text? fields
      maxGroupDepth := ← withDefault "max_group_depth" standard.maxGroupDepth natural? fields
      maxOperands := ← withDefault "max_operands" standard.maxOperands natural? fields }

def toJson (c : Configuration) : Json :=
  .object
    [("filter_key", .string c.filterKey),
      ("order_param", .string c.orderParam),
      ("properties_param", .string c.propertiesParam),
      ("references_param", .string c.referencesParam),
      ("range_param", .string c.rangeParam),
      ("max_group_depth", Json.ofNat c.maxGroupDepth),
      ("max_operands", Json.ofNat c.maxOperands)]

/-- The parameters other than filters. -/
def parameterNames (c : Configuration) : List String :=
  [c.orderParam, c.propertiesParam, c.referencesParam, c.rangeParam]

/-- A parameter name is not empty, holds no filter marker and occurs once. -/
def checkNames : List String → Except Fault Unit
  | [] => .ok ()
  | name :: rest => do
    if name.isEmpty || name.toList.contains '$' || name.toList.contains '@' then
      throw (Fault.of (.configuration (.parameterName name)))
    if rest.contains name then throw (Fault.of (.configuration (.parameterTwice name)))
    checkNames rest

def validate (c : Configuration) : Except Fault Unit := do
  if !Text.isIdentifier c.filterKey.toList then
    throw (Fault.of (.configuration (.filterKey c.filterKey)))
  checkNames c.parameterNames
  if c.maxGroupDepth = 0 ∨ c.maxOperands = 0 then throw (Fault.of (.configuration .limits))

end Configuration

end ResourceQuery
