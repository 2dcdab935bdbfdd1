import ResourceQuery.Configuration
import ResourceQuery.Filter.Tree
import ResourceQuery.Parameters
import ResourceQuery.Projection
import ResourceQuery.Query.ListText
import ResourceQuery.References
import ResourceQuery.SortOrder
/-!
# Specifications

All that a request asks of a store: which records, in which order, with which properties and
references, and which part of the result.
-/

namespace ResourceQuery

structure Specification where
  resourceType : String
  filter : Filter
  /-- The filters that the order and the projection refer to, by key. -/
  additionalFilters : NameMap Filter
  order : SortOrder
  projection : Projection
  references : References
  /-- Without a range all records are returned. -/
  range : Option Range

namespace Specification

/-- All records of a resource type. -/
def all (s : Schema) (resourceType : String) : Except Fault Specification := do
  return {
    resourceType := (← s.resource resourceType).name
    filter := ← Filter.all s resourceType
    additionalFilters := []
    order := ← SortOrder.none s resourceType
    projection := ← Projection.none s resourceType
    references := ← References.none s resourceType
    range := none }

/-- The parameters that ask for a specification. -/
def encode (spec : Specification) (config : Configuration) : Except Fault Parameters := do
  let main ← spec.filter.encode config.filterKey
  let additional ← spec.additionalFilters.mapM fun (key, filter) => filter.encode key
  let lists := (if spec.order.isEmpty then [] else [(config.orderParam, spec.order.encode)])
    ++ (if spec.projection.isEmpty then []
      else [(config.propertiesParam, spec.projection.encode)])
    ++ (if spec.references.isEmpty then []
      else [(config.referencesParam, spec.references.encode)])
    ++ (spec.range.map fun range => (config.rangeParam, range.encode)).toList
  return Parameters.ofPairs (main ++ additional.flatten ++ lists)

end Specification

end ResourceQuery
