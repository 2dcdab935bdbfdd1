import ResourceQuery.Filter.Condition
import ResourceQuery.Schema.Reference
/-!
# Filters

A filter is a tree of groups over the records of one resource type. The groups are numbered in the
order they were opened, the outermost group first, so every group has a greater number than the one
around it. A group knows the paths that its conditions and those of all groups inside it use.

With a base path the filter is about the elements that the path leads to, and the paths of its
conditions start there.
-/

namespace ResourceQuery

inductive Junction
  | conjunction
  | disjunction
  deriving DecidableEq, Repr

inductive FilterItem
  | group (number : Nat)
  | condition (condition : Condition)

structure FilterGroup where
  junction : Junction
  parent : Option Nat
  items : List FilterItem
  /-- Paths used by the conditions in the group and in all groups inside it. -/
  used : NameSet

structure Filter where
  resourceType : String
  basePath : Option Path
  /-- The container that the paths of conditions start at. -/
  scope : String
  groups : List FilterGroup
  /-- Resource types joined in by the paths. -/
  participatingTypes : NameSet

namespace Filter

def root : Nat := 0

/-- The filter that every record of a resource type passes. -/
def all (s : Schema) (resourceType : String) : Except Fault Filter := do
  let c ← s.resource resourceType
  return ⟨c.name, none, c.name, [⟨.conjunction, none, [], []⟩], []⟩

def group? (f : Filter) (number : Nat) : Option FilterGroup := f.groups[number]?

/-- Nothing was added to the outermost group. -/
def isEmpty (f : Filter) : Bool := (f.group? root).all fun g => g.items.isEmpty

/-- The paths used anywhere in the filter. -/
def used (f : Filter) : NameSet := ((f.group? root).map FilterGroup.used).getD []

def parent? (f : Filter) (number : Nat) : Option Nat := (f.group? number).bind FilterGroup.parent

def checkGroup (f : Filter) (number : Nat) : Except Fault Unit :=
  if number < f.groups.length then .ok ()
  else .error (Fault.of (.usage (.unknownNode number)))

def addItem (number : Nat) (item : FilterItem) (groups : List FilterGroup) : List FilterGroup :=
  groups.modify number fun g => { g with items := g.items ++ [item] }

/-- Open a group inside another one; the answer is its number. -/
def openGroup (f : Filter) (parent : Nat) (junction : Junction) : Except Fault (Nat × Filter) := do
  f.checkGroup parent
  let number := f.groups.length
  let groups := addItem parent (.group number) f.groups ++ [⟨junction, some parent, [], []⟩]
  return (number, { f with groups := groups })

def setJunction (f : Filter) (number : Nat) (junction : Junction) : Except Fault Filter := do
  f.checkGroup number
  return { f with groups := f.groups.modify number fun g => { g with junction := junction } }

/-- Note a path in a group and all groups around it. A parent has a smaller number than its group,
so the number itself bounds the way up. -/
def noteUsed (path : String) : Nat → Nat → List FilterGroup → List FilterGroup
  | 0, _, groups => groups
  | steps + 1, number, groups =>
    let noted := groups.modify number fun g => { g with used := NameSet.insert path g.used }
    match groups[number]?.bind FilterGroup.parent with
    | some parent => noteUsed path steps parent noted
    | none => noted

/-- The identifier of what a typed reference points to, as a type. -/
def referencedId (s : Schema) (path : String) (type : ValueType) : Except Fault ValueType := do
  match type.target? with
  | some (.resource target) =>
    match (← s.resource target).identifier? with
    | some id => return id.type
    | none => throw (Fault.of (.use path .referencedWithoutIdentifier))
  | _ => throw (Fault.of (.use path .notTypedReference))

/-- The type that operands are compared with. -/
def testedType (s : Schema) (path : String) (type : ValueType) (options : ConditionOptions) :
    Except Fault ValueType := do
  let tested ← match options.operandKind with
    | .value => pure type.leaf
    | .key =>
      match type.keyType? with
      | some key => pure key
      | none => throw (Fault.of (.use path .notMap))
    | .id => referencedId s path type
  match options.transform with
  | none => return tested
  | some t =>
    if t.appliesTo tested then return t.resultType
    else throw (Fault.of (.use path (.transformOfNonString t.function.name)))

/-- Values of a type that a test cannot be applied to, in words; nothing if it can. -/
def inapplicable? (test : Test) (tested : ValueType) : Option String :=
  if test.isPresence then none
  else match tested with
    | .object _ => some "an object"
    | .dynamic => some "a dynamically typed property"
    | .reference _ => if test.isEquality then none else some "a reference"
    | .scalar kind =>
      if test.isComparison && !kind.isOrdered then some ("a " ++ kind.name ++ " property")
      else if test.isTextual && kind != .string then some "a property that is not a string"
      else none
    | _ =>
      if test.isTextual && !tested.isString then some "a property that is not a string" else none

/-- A presence test has no operands, and every other test has one at least. -/
def checkOperandCount (path : String) (test : Test) (operands : List String) :
    Except Fault Unit := do
  if test.takesOperands && operands.isEmpty then
    throw (Fault.of (.use path (.operandMissing test.name)))
  if !test.takesOperands && !operands.isEmpty then
    throw (Fault.of (.use path (.operandUnwanted test.name)))

/-- The condition that a test of a path means, starting at a container. -/
def makeCondition (s : Schema) (scope path : String) (options : ConditionOptions) (test : Test)
    (operands : List String) : Except Fault Condition := do
  checkOperandCount path test operands
  let resolved ← Path.resolve s scope path
  resolved.checkEvaluable s
  let property ← resolved.terminal
  let tested ← testedType s path property.type options
  if let some what := inapplicable? test tested then
    throw (Fault.of (.use path (.testNotApplicable test.name what)))
  let values ← operands.mapM fun text =>
    match tested.parseText s text with
    | .ok value => Except.ok value
    | .error fault => .error (fault.on path)
  return ⟨test, resolved, options, values⟩

/-- Put a condition into a group. -/
def addCondition (s : Schema) (f : Filter) (number : Nat) (path : String)
    (options : ConditionOptions) (test : Test) (operands : List String) : Except Fault Filter := do
  f.checkGroup number
  let condition ← makeCondition s f.scope path options test operands
  return { f with
    groups := addItem number (.condition condition)
      (noteUsed condition.path.text (number + 1) number f.groups)
    participatingTypes := NameSet.insertAll condition.path.participatingTypes f.participatingTypes }

/-- Let the filter be about the elements that a path leads to. -/
def withBasePath (s : Schema) (f : Filter) (path : String) : Except Fault Filter := do
  if !f.isEmpty then throw (Fault.of (.request .basePathTooLate))
  let resolved ← Path.resolve s f.resourceType path
  resolved.checkEvaluable s
  let property ← resolved.terminal
  let some scope := Path.opened s property | throw (Fault.of (.use path .basePathTarget))
  let crossed := resolved.participatingTypes ++ (if property.isReference then [scope.name] else [])
  return { f with
    basePath := some resolved
    scope := scope.name
    participatingTypes := NameSet.insertAll crossed f.participatingTypes }

/-- The path is used; `a.*` asks for any path below `a`. -/
def isUsed (f : Filter) (path : String) : Bool :=
  match path.toList.reverse with
  | '*' :: '.' :: rest =>
    f.used.any fun p => Text.startsWith p (String.ofList ('.' :: rest).reverse)
  | _ => f.used.contains path

/-- The filter uses the identifier of its scope and nothing else. -/
def isByIdOnly (s : Schema) (f : Filter) : Bool :=
  match (s.container? f.scope).bind Container.identifier? with
  | some id => f.used == [id.name]
  | none => false

end Filter

end ResourceQuery
