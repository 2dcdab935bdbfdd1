import ResourceQuery.Filter.Basic
/-!
# Projections

Which properties of a resource are returned, and which referenced resources along with it. A rule on
a path covers all that is below it, up to a longer path with a rule of its own. An aggregate may be
computed over those elements of its collection only that pass a filter.
-/

namespace ResourceQuery

/-- The filter on the elements that an aggregate is computed over. -/
structure AggregateScope where
  key : String
  filter : Filter

structure Projection where
  resourceType : String
  includeByDefault : Bool
  /-- Paths that are included, or excluded. -/
  rules : NameMap Bool
  /-- Paths of fetched references, with the types they point to. -/
  fetched : NameMap String
  scopes : NameMap AggregateScope

namespace Projection

/-- No rule at all. -/
def none (s : Schema) (resourceType : String) : Except Fault Projection := do
  return ⟨(← s.resource resourceType).name, false, [], [], []⟩

/-- Include what no rule excludes; this comes before all rules. -/
def includeAll (p : Projection) : Except Fault Projection := do
  if p.includeByDefault then throw (Fault.of (.request .allTwice))
  if !p.rules.isEmpty then throw (Fault.of (.request .allNotFirst))
  return { p with includeByDefault := true }

/-- Include a property; of objects the properties are named. -/
def includePath (s : Schema) (p : Projection) (path : String) : Except Fault Projection := do
  let resolved ← Path.resolve s p.resourceType path
  let property ← resolved.terminal
  if property.isObject then throw (Fault.of (.use path .includeObject))
  return { p with rules := p.rules.insert path true }

def excludePath (s : Schema) (p : Projection) (path : String) : Except Fault Projection := do
  let resolved ← Path.resolve s p.resourceType path
  let _ ← resolved.terminal
  return { p with rules := p.rules.insert path false }

/-- The resource type behind a typed reference. -/
def fetchTarget? (p : Property) : Option String := p.type.target?.bind Target.resource?

/-- Include a typed reference and fetch what it points to, with all references on the way. -/
def fetchPath (s : Schema) (p : Projection) (path : String) : Except Fault Projection := do
  let resolved ← Path.resolve s p.resourceType path
  let property ← resolved.terminal
  if (fetchTarget? property).isNone then throw (Fault.of (.use path .fetchUntyped))
  let crossed := resolved.prefixes.filterMap fun (text, step) =>
    (step.property?.bind fetchTarget?).map fun target => (text, target)
  return { p with
    rules := p.rules.insert path true
    fetched := crossed.foldl (fun m entry => m.insert entry.1 entry.2) p.fetched }

/-- The path of the collection that an aggregate at a path is computed over. -/
def collectionPath (path : Path) (aggregate : Aggregate) : String :=
  match path.parent? with
  | some parent => parent ++ "." ++ aggregate.collection
  | Option.none => aggregate.collection

/-- Compute an aggregate over the elements that pass a filter, which is based on the collection. -/
def scopePath (s : Schema) (p : Projection) (path key : String) (filter : Filter) :
    Except Fault Projection := do
  let resolved ← Path.resolve s p.resourceType path
  resolved.checkEvaluable s
  let property ← resolved.terminal
  let some aggregate := property.aggregate? | throw (Fault.of (.use path .notAggregate))
  let collection := collectionPath resolved aggregate
  if filter.resourceType ≠ p.resourceType ∨ filter.basePath.map Path.text ≠ some collection then
    throw (Fault.of (.use path (.scopeElsewhere key collection)))
  return { p with
    rules := p.rules.insert path true
    scopes := p.scopes.insert path ⟨key, filter⟩ }

/-- The rule on the path or on the longest path above it that has one. Each step upwards shortens
the path. -/
def nearestRule? (rules : NameMap Bool) : Nat → List Char → Option Bool
  | 0, _ => Option.none
  | steps + 1, path =>
    match rules.find? (String.ofList path) with
    | some rule => some rule
    | Option.none =>
      match Text.splitLast Path.separator path with
      | some (parent, _) => nearestRule? rules steps parent
      | Option.none => Option.none

def ruleFor? (p : Projection) (path : String) : Option Bool :=
  nearestRule? p.rules (path.toList.length + 1) path.toList

def isIncluded (p : Projection) (path : String) : Bool := (p.ruleFor? path).getD p.includeByDefault

/-- A rule below the path includes something. -/
def includesBelow (p : Projection) (path : String) : Bool :=
  let start := path ++ "."
  ((p.rules.dropWhile fun rule => rule.1 < start).takeWhile fun rule =>
    Text.startsWith rule.1 start).any Prod.snd

/-- Whether a writer emits the property at a path. A property that is not fetched by default has to
be named, and an object is entered when something in it is included. -/
def isWritten (p : Projection) (path : String) (fetchedByDefault : Bool) : Bool :=
  if p.includesBelow path then true
  else match p.rules.find? path with
    | some rule => rule
    | Option.none =>
      match p.ruleFor? path with
      | some false => false
      | some true => fetchedByDefault
      | Option.none => p.includeByDefault && fetchedByDefault

/-- The path is fetched; `a.*` asks for any path below `a`. -/
def isFetchRequested (p : Projection) (path : String) : Bool :=
  match path.toList.reverse with
  | '*' :: '.' :: rest =>
    p.fetched.keys.any fun q => Text.startsWith q (String.ofList ('.' :: rest).reverse)
  | _ => p.fetched.contains path

def included (p : Projection) : List String := NameMap.keys (p.rules.filter Prod.snd)

def excluded (p : Projection) : List String := NameMap.keys (p.rules.filter fun rule => !rule.2)

def isEmpty (p : Projection) : Bool := !p.includeByDefault && p.rules.isEmpty

/-- The element that a rule is written as. -/
def encodeRule (p : Projection) (path : String) (isIncluded : Bool) : String :=
  if !isIncluded then "-" ++ path
  else match p.scopes.find? path with
    | some scope => path ++ "/" ++ scope.key
    | Option.none => if p.fetched.contains path then path ++ ".*" else path

def encode (p : Projection) : String :=
  Text.join ","
    ((if p.includeByDefault then ["*"] else []) ++ p.rules.map fun (path, rule) =>
      p.encodeRule path rule)

end Projection

end ResourceQuery
