import ResourceQuery.Configuration
import ResourceQuery.Parameters
import ResourceQuery.Query.FilterParameter
import ResourceQuery.Query.ListText
/-!
# Parameters of filters

The filter parameters of a request by the key of their filter, in the order of names. Only the main
filter and those that the order or the projection refers to are looked at; all other parameters
belong to someone else.
-/

namespace ResourceQuery

inductive FilterContent
  /-- The value tells how the items of the group are joined. -/
  | junction
  | condition (text : ConditionText)
  deriving DecidableEq, Repr

/-- A parameter about a group of a filter. -/
structure FilterEntry where
  name : String
  group : GroupKey
  content : FilterContent
  values : List String
  deriving DecidableEq, Repr

/-- All parameters of one filter. -/
structure FilterParameters where
  basePath : Option String := none
  entries : List FilterEntry := []
  deriving DecidableEq, Repr

namespace FilterParameters

/-- The only value of a parameter. -/
def singleValue (name : String) : List String → Except Fault String
  | [value] => .ok value
  | _ => .error (Fault.of (.request (.notSingleValue name)))

def of (groups : NameMap FilterParameters) (key : String) : FilterParameters :=
  (groups.find? key).getD {}

def addEntry (groups : NameMap FilterParameters) (entry : FilterEntry) :
    NameMap FilterParameters :=
  let p := of groups entry.group.root
  groups.insert entry.group.root { p with entries := p.entries ++ [entry] }

/-- Sort a parameter under the key of its filter. -/
def addParameter (groups : NameMap FilterParameters) (name : String) (values : List String) :
    Except Fault (NameMap FilterParameters) := do
  match ← FilterParameter.parse name with
  | .basePath key =>
    let path ← singleValue name values
    return groups.insert key { of groups key with basePath := some path }
  | .junction group => return addEntry groups ⟨name, group, .junction, values⟩
  | .condition group text => return addEntry groups ⟨name, group, .condition text, values⟩

/-- The name is that of a filter parameter of one of the given filters. -/
def isAddressed (config : Configuration) (keys : List String) (name : String) : Bool :=
  match FilterParameter.root? name with
  | some root =>
    !config.parameterNames.contains name && (root == config.filterKey || keys.contains root)
  | none => false

/-- The parameters of the main filter and of the filters with the given keys. -/
def collect (config : Configuration) (keys : List String) (params : Parameters) :
    Except Fault (NameMap FilterParameters) :=
  (params.entries.filter fun entry => isAddressed config keys entry.1).foldlM
    (fun groups entry => addParameter groups entry.1 entry.2) []

/-- The filters that an order refers to. -/
def orderKeys (elements : List OrderText) : List String :=
  elements.filterMap fun element =>
    match element with
    | .segment key _ _ => some key
    | .property _ _ => none

/-- The filters that a projection refers to. -/
def projectionKeys (elements : List ProjectionText) : List String :=
  elements.filterMap fun element =>
    match element with
    | .scopePath _ key => some key
    | _ => none

/-- The keys of the filters that the order and the projection refer to. -/
def referredKeys (config : Configuration) (params : Parameters) : Except Fault (List String) := do
  let orders ← (params.values config.orderParam).mapM OrderText.parse
  let projections ← (params.values config.propertiesParam).mapM ProjectionText.parse
  return orders.flatMap orderKeys ++ projections.flatMap projectionKeys

end FilterParameters

end ResourceQuery
