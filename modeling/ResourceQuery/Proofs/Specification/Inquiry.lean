import ResourceQuery.Compile.Specification
import ResourceQuery.Proofs.Path.Inquiry
/-!
# Compiling from memory

Compiling asks for the paths of conditions and list elements on its way. Here it is written as an
inquiry, part by part, with what is done once a path is known (`conditionOn` and the like) apart
from the question. If every path is followed, the inquiry comes to what is compiled; so it does from
a memo, whatever was asked before (`Memo.transparent`).
-/

namespace ResourceQuery

open Inquiry (answer_bind answer_pure answer_lift answer_ite answer_path answer_tell answer_foldlM
  answer_mapM)

variable {s : Schema} {config : Configuration}

/-! ## Filters -/

namespace Filter

/-- The condition on a path that was found. -/
def conditionOn (s : Schema) (path : String) (options : ConditionOptions) (test : Test)
    (operands : List String) (resolved : Path) : Except Fault Condition := do
  resolved.checkEvaluable s
  let property ← resolved.terminal
  let tested ← testedType s path property.type options
  if let some what := inapplicable? test tested then
    throw (Fault.of (.use path (.testNotApplicable test.name what)))
  let values ← operands.mapM fun text =>
    match tested.parseText s text with
    | .ok value => Except.ok value
    | .error fault => .error (fault.on path)
  return ⟨test, resolved, options, values⟩

def askCondition (s : Schema) (scope path : String) (options : ConditionOptions) (test : Test)
    (operands : List String) : Inquiry Condition := do
  checkOperandCount path test operands
  conditionOn s path options test operands (← Inquiry.path scope path)

theorem answer_askCondition (scope path : String) (options : ConditionOptions) (test : Test)
    (operands : List String) :
    (askCondition s scope path options test operands).answer s =
      makeCondition s scope path options test operands := by
  simp only [askCondition, answer_bind, answer_lift, answer_path]
  rfl

def askAddCondition (s : Schema) (f : Filter) (number : Nat) (path : String)
    (options : ConditionOptions) (test : Test) (operands : List String) : Inquiry Filter := do
  f.checkGroup number
  let condition ← askCondition s f.scope path options test operands
  return { f with
    groups := addItem number (.condition condition)
      (noteUsed condition.path.text (number + 1) number f.groups)
    participatingTypes := NameSet.insertAll condition.path.participatingTypes f.participatingTypes }

theorem answer_askAddCondition (f : Filter) (number : Nat) (path : String)
    (options : ConditionOptions) (test : Test) (operands : List String) :
    (f.askAddCondition s number path options test operands).answer s =
      f.addCondition s number path options test operands := by
  simp only [askAddCondition, answer_bind, answer_lift, answer_pure, answer_askCondition]
  rfl

def askTests (s : Schema) (number : Nat) (options : ConditionOptions) (test : Test)
    (operands : List String) (f : Filter) (paths : List PathText) : Inquiry Filter :=
  paths.foldlM (fun f path =>
    (f.askAddCondition s number path.path options test operands).tell
      fun fault => fault.locatedAt path.position) f

theorem answer_askTests (number : Nat) (options : ConditionOptions) (test : Test)
    (operands : List String) (f : Filter) (paths : List PathText) :
    (askTests s number options test operands f paths).answer s =
      addTests s number options test operands f paths := by
  simp only [askTests, answer_foldlM, answer_tell, answer_askAddCondition]
  refine congrArg (fun step => paths.foldlM step f) (funext fun f => funext fun path => ?_)
  cases f.addCondition s number path.path options test operands <;> rfl

def askConditionText (s : Schema) (config : Configuration) (f : Filter) (number : Nat)
    (name : String) (text : ConditionText) (values : List String) : Inquiry Filter := do
  let reading ← Qualifier.ofCondition text.qualifiers
  let options := { reading.options with negated := text.negated }
  let (test, operands) ← testAndOperands name reading.test values
  if config.maxOperands < operands.length then
    .done (.error ((Fault.of (.request (.tooManyValues config.maxOperands))).about name))
  else if 1 < text.paths.length then
    let (inner, f) ← f.openGroup number .disjunction
    askTests s inner options test operands f text.paths
  else askTests s number options test operands f text.paths

theorem answer_askConditionText (f : Filter) (number : Nat) (name : String) (text : ConditionText)
    (values : List String) :
    (f.askConditionText s config number name text values).answer s =
      f.addConditionText s config number name text values := by
  simp only [askConditionText, answer_bind, answer_lift, answer_ite, answer_askTests]
  rfl

def askContent (s : Schema) (config : Configuration) (f : Filter) (number : Nat)
    (entry : FilterEntry) : Inquiry Filter :=
  match entry.content with
  | .junction => liftM do
    let value ← FilterParameters.singleValue entry.name entry.values
    f.setJunction number (← junctionOf entry.group value)
  | .condition text => f.askConditionText s config number entry.name text entry.values

theorem answer_askContent (f : Filter) (number : Nat) (entry : FilterEntry) :
    (f.askContent s config number entry).answer s = f.addContent s config number entry := by
  unfold askContent addContent
  cases entry.content with
  | junction => rw [answer_lift]
  | condition text => exact answer_askConditionText f number entry.name text entry.values

def askEntry (s : Schema) (config : Configuration) (b : Builder) (entry : FilterEntry) :
    Inquiry Builder := do
  if config.maxGroupDepth < entry.group.depth then
    .done (.error ((Fault.of (.request (.groupTooDeep entry.group.encode
      config.maxGroupDepth))).about entry.name))
  else
    let b ← b.enter entry.group
    return { b with filter := ← b.filter.askContent s config b.number entry }

theorem answer_askEntry (b : Builder) (entry : FilterEntry) :
    (askEntry s config b entry).answer s = b.addEntry s config entry := by
  simp only [askEntry, answer_bind, answer_lift, answer_ite, answer_pure, answer_askContent]
  by_cases hdepth : config.maxGroupDepth < entry.group.depth
  · rw [Builder.addEntry, if_pos hdepth, if_pos hdepth]
    rfl
  · rw [Builder.addEntry, if_neg hdepth, if_neg hdepth]

/-- The filter with a base path that was found. -/
def basedOn (s : Schema) (f : Filter) (path : String) (resolved : Path) : Except Fault Filter := do
  resolved.checkEvaluable s
  let property ← resolved.terminal
  let some scope := Path.opened s property | throw (Fault.of (.use path .basePathTarget))
  let crossed := resolved.participatingTypes ++ (if property.isReference then [scope.name] else [])
  return { f with
    basePath := some resolved
    scope := scope.name
    participatingTypes := NameSet.insertAll crossed f.participatingTypes }

def askBasePath (s : Schema) (f : Filter) (path : String) : Inquiry Filter := do
  if !f.isEmpty then .done (.error (Fault.of (.request .basePathTooLate)))
  else f.basedOn s path (← Inquiry.path f.resourceType path)

theorem answer_askBasePath (f : Filter) (path : String) :
    (f.askBasePath s path).answer s = f.withBasePath s path := by
  simp only [askBasePath, answer_ite, answer_bind, answer_lift, answer_path]
  rfl

def askBuild (s : Schema) (config : Configuration) (resourceType : String)
    (p : FilterParameters) : Inquiry Filter := do
  let unrestricted ← Filter.all s resourceType
  let based ← match p.basePath with
    | some path => unrestricted.askBasePath s path
    | none => pure unrestricted
  return (← p.entries.foldlM (askEntry s config) (.start based)).filter

theorem answer_askBuild (resourceType : String) (p : FilterParameters) :
    (askBuild s config resourceType p).answer s = build s config resourceType p := by
  simp only [askBuild, answer_bind, answer_lift]
  rw [build]
  refine bind_congr fun unrestricted => ?_
  cases p.basePath with
  | none =>
      simp only [answer_bind, answer_pure, answer_foldlM, answer_askEntry]
  | some path =>
      simp only [answer_bind, answer_pure, answer_foldlM, answer_askEntry, answer_askBasePath]

def askCompile (s : Schema) (config : Configuration) (resourceType : String)
    (params : Parameters) : Inquiry Filter := do
  let groups ← FilterParameters.collect config [] params
  let resource ← s.resource resourceType
  askBuild s config resource.name (FilterParameters.of groups config.filterKey)

theorem answer_askCompile (resourceType : String) (params : Parameters) :
    (askCompile s config resourceType params).answer s = compile s config resourceType params := by
  simp only [askCompile, answer_bind, answer_lift, answer_askBuild]
  rfl

end Filter

/-! ## Lists -/

/-- Ask for the path of an element; a fault is located where the element stands. -/
def Inquiry.element {α : Type} (start : String) (path : PathText)
    (on : Path → Except Fault α) : Inquiry α :=
  Inquiry.tell (fun fault => fault.locatedAt path.position) do
    on (← Inquiry.path start path.path)

theorem Inquiry.answer_element {α : Type} (start : String) (path : PathText)
    (on : Path → Except Fault α) :
    (element start path on).answer s =
      located path.position (Path.resolve s start path.path >>= on) := by
  simp only [element, answer_tell, answer_bind, answer_lift, answer_path]
  cases Path.resolve s start path.path >>= on <;> rfl

open Inquiry (answer_element)

namespace SortOrder

/-- The order with a property that was found behind the others. -/
def sortedOn (s : Schema) (o : SortOrder) (direction : Direction) (path : String)
    (transform : Option Transform) (byId : Bool) (resolved : Path) : Except Fault SortOrder := do
  resolved.checkEvaluable s
  let property ← resolved.terminal
  if resolved.isMultiValued then throw (Fault.of (.use path .sortCollection))
  let sorted ← sortedType s path property.type byId
  if let some t := transform then
    if !t.appliesTo sorted then
      throw (Fault.of (.use path (.transformOfNonString t.function.name)))
  return { o with properties := o.properties ++ [⟨direction, resolved, transform, byId⟩] }

def askText (s : Schema) (filters : NameMap Filter) (o : SortOrder) (text : OrderText) :
    Inquiry SortOrder := do
  match text with
  | .segment key descending position =>
    let filter ← additionalFilter filters key position
    located position (o.addSegment (if descending then .desc else .asc) key filter)
  | .property path qualifiers =>
    let reading ← Qualifier.ofSort qualifiers
    Inquiry.element o.resourceType path
      (o.sortedOn s (reading.direction.getD .asc) path.path reading.transform reading.byId)

theorem answer_askText (filters : NameMap Filter) (o : SortOrder) (text : OrderText) :
    (o.askText s filters text).answer s = o.addText s filters text := by
  cases text with
  | segment key descending position =>
      simp only [askText, answer_bind, answer_lift]
      rfl
  | property path qualifiers =>
      simp only [askText, answer_bind, answer_lift, answer_element]
      rfl

def askCompile (s : Schema) (filters : NameMap Filter) (o : SortOrder) (text : String) :
    Inquiry SortOrder := do
  (← OrderText.parse text : List OrderText).foldlM (askText s filters) o

theorem answer_askCompile (filters : NameMap Filter) (o : SortOrder) (text : String) :
    (o.askCompile s filters text).answer s = o.compile s filters text := by
  simp only [askCompile, answer_bind, answer_lift, answer_foldlM, answer_askText]
  rfl

end SortOrder

namespace Projection

def includeOn (p : Projection) (path : String) (resolved : Path) : Except Fault Projection := do
  let property ← resolved.terminal
  if property.isObject then throw (Fault.of (.use path .includeObject))
  return { p with rules := p.rules.insert path true }

def excludeOn (p : Projection) (path : String) (resolved : Path) : Except Fault Projection := do
  let _ ← resolved.terminal
  return { p with rules := p.rules.insert path false }

def fetchOn (p : Projection) (path : String) (resolved : Path) : Except Fault Projection := do
  let property ← resolved.terminal
  if (fetchTarget? property).isNone then throw (Fault.of (.use path .fetchUntyped))
  let crossed := resolved.prefixes.filterMap fun (text, step) =>
    (step.property?.bind fetchTarget?).map fun target => (text, target)
  return { p with
    rules := p.rules.insert path true
    fetched := crossed.foldl (fun m entry => m.insert entry.1 entry.2) p.fetched }

def scopeOn (s : Schema) (p : Projection) (path key : String) (filter : Filter)
    (resolved : Path) : Except Fault Projection := do
  resolved.checkEvaluable s
  let property ← resolved.terminal
  let some aggregate := property.aggregate? | throw (Fault.of (.use path .notAggregate))
  let collection := collectionPath resolved aggregate
  if filter.resourceType ≠ p.resourceType ∨ filter.basePath.map Path.text ≠ some collection then
    throw (Fault.of (.use path (.scopeElsewhere key collection)))
  return { p with
    rules := p.rules.insert path true
    scopes := p.scopes.insert path ⟨key, filter⟩ }

def askText (s : Schema) (filters : NameMap Filter) (p : Projection) (text : ProjectionText) :
    Inquiry Projection := do
  match text with
  | .includeAll position => located position p.includeAll
  | .includePath path => Inquiry.element p.resourceType path (p.includeOn path.path)
  | .excludePath path => Inquiry.element p.resourceType path (p.excludeOn path.path)
  | .fetchPath path => Inquiry.element p.resourceType path (p.fetchOn path.path)
  | .scopePath path key =>
    let filter ← additionalFilter filters key path.position
    Inquiry.element p.resourceType path (p.scopeOn s path.path key filter)

theorem answer_askText (filters : NameMap Filter) (p : Projection) (text : ProjectionText) :
    (p.askText s filters text).answer s = p.addText s filters text := by
  cases text with
  | includeAll position => rfl
  | includePath path | excludePath path | fetchPath path =>
      simp only [askText, answer_element]
      rfl
  | scopePath path key =>
      simp only [askText, answer_bind, answer_lift, answer_element]
      rfl

def askCompile (s : Schema) (filters : NameMap Filter) (p : Projection) (text : String) :
    Inquiry Projection := do
  (← ProjectionText.parse text : List ProjectionText).foldlM (askText s filters) p

theorem answer_askCompile (filters : NameMap Filter) (p : Projection) (text : String) :
    (p.askCompile s filters text).answer s = p.compile s filters text := by
  simp only [askCompile, answer_bind, answer_lift, answer_foldlM, answer_askText]
  rfl

end Projection

namespace References

def addOn (r : References) (path : String) (resolved : Path) : Except Fault References := do
  let property ← resolved.terminal
  if !property.type.isReference then throw (Fault.of (.use path .notReference))
  let crossed := resolved.prefixes.filterMap fun (text, step) =>
    (step.property?.bind fun p => p.type.target?).map fun target => (text, target.name)
  return { r with paths := crossed.foldl (fun m entry => m.insert entry.1 entry.2) r.paths }

def askCompile (r : References) (text : String) : Inquiry References := do
  (← PathText.parseList text : List PathText).foldlM (fun r path =>
    Inquiry.element r.resourceType path (r.addOn path.path)) r

theorem answer_askCompile (r : References) (text : String) :
    (r.askCompile text).answer s = r.compile s text := by
  simp only [askCompile, answer_bind, answer_lift, answer_foldlM, answer_element]
  rfl

end References

namespace Specification

def askCompile (s : Schema) (config : Configuration) (resourceType : String)
    (params : Parameters) : Inquiry Specification := do
  let start ← all s resourceType
  let keys ← FilterParameters.referredKeys config params
  let groups ← FilterParameters.collect config keys params
  let main := FilterParameters.of groups config.filterKey
  checkMain config main
  let filter ← Filter.askBuild s config start.resourceType main
  let others := groups.filter fun entry => entry.1 ≠ config.filterKey
  let additional ← others.mapM fun (key, p) => do
    return (key, ← Filter.askBuild s config start.resourceType p)
  let order ← (params.values config.orderParam).foldlM (SortOrder.askCompile s additional)
    start.order
  let projection ← (params.values config.propertiesParam).foldlM
    (Projection.askCompile s additional) start.projection
  let references ← (params.values config.referencesParam).foldlM References.askCompile
    start.references
  let range ← ((params.firstNonEmpty? config.rangeParam).mapM Range.parse : Except Fault _)
  return {
    resourceType := start.resourceType
    filter := filter
    additionalFilters := additional
    order := order
    projection := projection
    references := references
    range := range }

theorem answer_askCompile (resourceType : String) (params : Parameters) :
    (askCompile s config resourceType params).answer s = compile s config resourceType params := by
  simp only [askCompile, answer_bind, answer_lift, answer_pure, answer_foldlM, answer_mapM,
    Filter.answer_askBuild, SortOrder.answer_askCompile, Projection.answer_askCompile,
    References.answer_askCompile]
  rfl

end Specification

namespace Memo

/-- A memo is not noticed. In any run of calls on a memo that knew nothing, each call is answered as
following its path answers it. Known are then the paths that were called for and could be followed,
and for each start as many as there were different texts of them. So whatever is compiled from the
memo comes out as without one, and leaves a memo as further calls do. -/
theorem transparent (s : Schema) (calls : List (String × String)) :
    (empty.run s calls).1 = calls.map (fun call => Path.resolve s call.1 call.2) ∧
      (∀ start text, (empty.run s calls).2.find? start text =
        if (start, text) ∈ calls then (Path.resolve s start text).toOption else none) ∧
      (∀ start, (empty.run s calls).2.count start = (followed s calls start).dedup.length) ∧
      ∀ config resourceType params,
        (∃ more, (Specification.askCompile s config resourceType params).recollect s
            (empty.run s calls).2 =
          (Specification.compile s config resourceType params,
            (empty.run s (calls ++ more)).2)) ∧
        ∃ more, (Filter.askCompile s config resourceType params).recollect s
            (empty.run s calls).2 =
          (Filter.compile s config resourceType params, (empty.run s (calls ++ more)).2) := by
  obtain ⟨hanswers, hsound, -⟩ := (sound_empty s).run calls
  have hrecollect : ∀ {α : Type} (x : Inquiry α), ∃ more,
      x.recollect s (empty.run s calls).2 = (x.answer s, (empty.run s (calls ++ more)).2) := by
    intro α x
    exact ⟨x.calls s, by rw [Inquiry.recollect_eq hsound, run_append]⟩
  refine ⟨hanswers, find?_run_empty s calls, count_run_empty s calls, ?_⟩
  intro config resourceType params
  rw [← Specification.answer_askCompile, ← Filter.answer_askCompile]
  exact ⟨hrecollect _, hrecollect _⟩

end Memo

end ResourceQuery
