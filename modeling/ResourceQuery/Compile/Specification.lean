import ResourceQuery.Compile.Filter
import ResourceQuery.Specification
/-!
# Compiling specifications

Filters come first, then the order, the projection, the references and the range. The first fault
ends the compilation, and there is no partial result.
-/

namespace ResourceQuery

/-- The filter with a key, for an element that stands at a position. -/
def additionalFilter (filters : NameMap Filter) (key : String) (position : Position) :
    Except Fault Filter :=
  match filters.find? key with
  | some filter => .ok filter
  | none =>
    .error ((Fault.of (.unknownName "filter" key (NameMap.keys filters))).locatedAt position)

/-- A fault of an element is located where the element stands. -/
def located {α : Type} (position : Position) (outcome : Except Fault α) : Except Fault α :=
  match outcome with
  | .ok value => .ok value
  | .error fault => .error (fault.locatedAt position)

namespace SortOrder

def addText (s : Schema) (filters : NameMap Filter) (o : SortOrder) (text : OrderText) :
    Except Fault SortOrder := do
  match text with
  | .segment key descending position =>
    let filter ← additionalFilter filters key position
    located position (o.addSegment (if descending then .desc else .asc) key filter)
  | .property path qualifiers =>
    let reading ← Qualifier.ofSort qualifiers
    located path.position
      (o.add s (reading.direction.getD .asc) path.path reading.transform reading.byId)

/-- Add the elements of an order parameter. -/
def compile (s : Schema) (filters : NameMap Filter) (o : SortOrder) (text : String) :
    Except Fault SortOrder := do
  (← OrderText.parse text).foldlM (addText s filters) o

end SortOrder

namespace Projection

def addText (s : Schema) (filters : NameMap Filter) (p : Projection) (text : ProjectionText) :
    Except Fault Projection := do
  match text with
  | .includeAll position => located position p.includeAll
  | .includePath path => located path.position (p.includePath s path.path)
  | .excludePath path => located path.position (p.excludePath s path.path)
  | .fetchPath path => located path.position (p.fetchPath s path.path)
  | .scopePath path key =>
    let filter ← additionalFilter filters key path.position
    located path.position (p.scopePath s path.path key filter)

/-- Add the elements of a projection parameter. -/
def compile (s : Schema) (filters : NameMap Filter) (p : Projection) (text : String) :
    Except Fault Projection := do
  (← ProjectionText.parse text).foldlM (addText s filters) p

end Projection

namespace References

/-- Add the paths of a reference parameter. -/
def compile (s : Schema) (r : References) (text : String) : Except Fault References := do
  (← PathText.parseList text).foldlM (fun r path => located path.position (r.add s path.path)) r

end References

namespace Specification

/-- The main filter is about the records themselves. -/
def checkMain (config : Configuration) (p : FilterParameters) : Except Fault Unit :=
  if p.basePath.isSome then .error (Fault.of (.request (.mainBasePath config.filterKey)))
  else .ok ()

/-- The specification that the parameters of a request ask for. -/
def compile (s : Schema) (config : Configuration) (resourceType : String) (params : Parameters) :
    Except Fault Specification := do
  let start ← Specification.all s resourceType
  let keys ← FilterParameters.referredKeys config params
  let groups ← FilterParameters.collect config keys params
  let main := FilterParameters.of groups config.filterKey
  checkMain config main
  let filter ← Filter.build s config start.resourceType main
  let others := groups.filter fun entry => entry.1 ≠ config.filterKey
  let additional ← others.mapM fun (key, p) => do
    return (key, ← Filter.build s config start.resourceType p)
  let order ← (params.values config.orderParam).foldlM (SortOrder.compile s additional) start.order
  let projection ← (params.values config.propertiesParam).foldlM
    (Projection.compile s additional) start.projection
  let references ← (params.values config.referencesParam).foldlM (References.compile s)
    start.references
  let range ← (params.firstNonEmpty? config.rangeParam).mapM Range.parse
  return {
    resourceType := start.resourceType
    filter := filter
    additionalFilters := additional
    order := order
    projection := projection
    references := references
    range := range }

end Specification

end ResourceQuery
