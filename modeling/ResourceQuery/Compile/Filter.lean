import ResourceQuery.Compile.FilterParameters
import ResourceQuery.Compile.Qualifiers
/-!
# Compiling filters

A filter is built from its parameters in the order of their names. The group of a parameter is
opened when it is first met, with all groups around it; the key of the filter itself is the
outermost group. The groups around the last parameter stay on a stack, which is cut back to those
that the next one shares with it. A condition on several paths becomes a group of its own in which
one has to hold.
-/

namespace ResourceQuery

namespace Filter

/-- A filter while it is built. -/
structure Builder where
  filter : Filter
  /-- The groups met so far, by their segments. -/
  opened : List (List String × Nat)
  /-- The group of the last parameter. -/
  current : Option GroupKey
  /-- That group and the groups around it, the outermost one in front. -/
  stack : List Nat

namespace Builder

def start (f : Filter) : Builder := ⟨f, [], none, []⟩

/-- The group that is built at. -/
def number (b : Builder) : Nat := b.stack.getLast?.getD root

/-- A new group inside the one that is built at; the first group is the outermost one. -/
def openInside (b : Builder) : Except Fault (Nat × Filter) :=
  match b.stack.getLast? with
  | some parent => b.filter.openGroup parent .conjunction
  | none => .ok (root, b.filter)

/-- Go into the group with the given segments; if it was not met yet, it is opened there. -/
def push (b : Builder) (segments : List String) : Except Fault Builder :=
  match b.opened.lookup segments with
  | some number => .ok { b with stack := b.stack ++ [number] }
  | none => do
    let (number, filter) ← b.openInside
    return { b with
      filter := filter
      opened := (segments, number) :: b.opened
      stack := b.stack ++ [number] }

/-- Go into the group of a key, or one around it, with one segment more than the given number. -/
def pushAt (key : GroupKey) (b : Builder) (depth : Nat) : Except Fault Builder :=
  b.push (key.ancestor (depth + 1)).segments

/-- Go to the group of a parameter: out of the groups that it does not share with the last one, and
into the groups below. -/
def enter (b : Builder) (key : GroupKey) : Except Fault Builder := do
  let keep := (b.current.map fun last => last.commonPrefix key).getD 0
  let depths := List.range' keep (key.depth - keep)
  let b ← depths.foldlM (pushAt key) { b with stack := b.stack.take keep }
  return { b with current := some key }

end Builder

/-- The test of a condition and its operands. Without a test, values are compared for equality, and
a property without values has to be present. -/
def testAndOperands (name : String) (test : Option Test) (values : List String) :
    Except Fault (Test × List String) :=
  let given := values.filter fun v => !v.isEmpty
  match test with
  | none => .ok (if given.isEmpty then (.presence true, []) else (.equality true, given))
  | some test =>
    if test.takesOperands then .ok (test, values)
    else if given.isEmpty then .ok (test, [])
    else .error ((Fault.of (.request (.valueUnwanted test.name))).about name)

/-- Add the tests of all paths to a group; a fault is located at its path. -/
def addTests (s : Schema) (number : Nat) (options : ConditionOptions) (test : Test)
    (operands : List String) (f : Filter) (paths : List PathText) : Except Fault Filter :=
  paths.foldlM (fun f path =>
    match f.addCondition s number path.path options test operands with
    | .ok f => .ok f
    | .error fault => .error (fault.locatedAt path.position)) f

/-- Add a condition to a group. -/
def addConditionText (s : Schema) (config : Configuration) (f : Filter) (number : Nat)
    (name : String) (text : ConditionText) (values : List String) : Except Fault Filter := do
  let reading ← Qualifier.ofCondition text.qualifiers
  let options := { reading.options with negated := text.negated }
  let (test, operands) ← testAndOperands name reading.test values
  if config.maxOperands < operands.length then
    throw ((Fault.of (.request (.tooManyValues config.maxOperands))).about name)
  if 1 < text.paths.length then
    let (inner, f) ← f.openGroup number .disjunction
    addTests s inner options test operands f text.paths
  else addTests s number options test operands f text.paths

/-- The junction that a value names. -/
def junctionOf (group : GroupKey) (value : String) : Except Fault Junction :=
  if value = "or" then .ok .disjunction
  else if value = "and" then .ok .conjunction
  else .error ((Fault.of (.request (.groupJunction group.encode))).about value)

/-- What a parameter adds to its group. -/
def addContent (s : Schema) (config : Configuration) (f : Filter) (number : Nat)
    (entry : FilterEntry) : Except Fault Filter :=
  match entry.content with
  | .junction => do
    let value ← FilterParameters.singleValue entry.name entry.values
    f.setJunction number (← junctionOf entry.group value)
  | .condition text => f.addConditionText s config number entry.name text entry.values

/-- What a parameter adds to a filter. -/
def Builder.addEntry (s : Schema) (config : Configuration) (b : Builder) (entry : FilterEntry) :
    Except Fault Builder := do
  if config.maxGroupDepth < entry.group.depth then
    throw ((Fault.of (.request (.groupTooDeep entry.group.encode config.maxGroupDepth))).about
      entry.name)
  let b ← b.enter entry.group
  return { b with filter := ← b.filter.addContent s config b.number entry }

/-- The filter that parameters describe. -/
def build (s : Schema) (config : Configuration) (resourceType : String) (p : FilterParameters) :
    Except Fault Filter := do
  let unrestricted ← Filter.all s resourceType
  let based ← match p.basePath with
    | some path => unrestricted.withBasePath s path
    | none => pure unrestricted
  return (← p.entries.foldlM (Builder.addEntry s config) (.start based)).filter

/-- The main filter of a request, to select the record to lock for instance. -/
def compile (s : Schema) (config : Configuration) (resourceType : String) (params : Parameters) :
    Except Fault Filter := do
  let groups ← FilterParameters.collect config [] params
  let resource ← s.resource resourceType
  build s config resource.name (FilterParameters.of groups config.filterKey)

end Filter

end ResourceQuery
