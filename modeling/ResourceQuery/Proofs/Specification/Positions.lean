import ResourceQuery.Proofs.Query.Places
import ResourceQuery.Proofs.Specification.Acceptance
import ResourceQuery.Proofs.Specification.Faults
/-!
# Positions of faults

A fault that names a path and has a position points at that path: in a text of the request, where
the path stands as a whole element (`Specification.pointsAt_of_compile`). Paths are resolved without
a position, and their faults name no other path (`Fault.Bare`); an element puts its own position on
them. Whatever else can go wrong names no path.
-/

namespace ResourceQuery

variable {α : Type} {s : Schema}

namespace Fault

/-- The fault names no other path. -/
def NamesOnly (path : String) (fault : Fault) : Prop := ∀ named ∈ fault.path, named = path

/-- The fault names no other path and is not located yet. -/
structure Bare (path : String) (fault : Fault) : Prop where
  namesOnly : fault.NamesOnly path
  unlocated : fault.position = .unknown

/-- The fault names no path. -/
def Pathless (fault : Fault) : Prop := fault.path = none

/-- If the fault names a path and is located, it is at a place of that path. -/
def PointsAt (P : String → Position → Prop) (fault : Fault) : Prop :=
  ∀ path ∈ fault.path, fault.position.isUnknown = false → P path fault.position

variable {fault : Fault} {path : String} {P : String → Position → Prop}

theorem Pathless.namesOnly (h : fault.Pathless) : fault.NamesOnly path := by
  intro named hnamed
  rw [h] at hnamed
  cases hnamed

theorem Pathless.pointsAt (h : fault.Pathless) : fault.PointsAt P := by
  intro named hnamed
  rw [h] at hnamed
  cases hnamed

theorem Bare.pointsAt (h : fault.Bare path) : fault.PointsAt P := by
  intro named _ hknown
  rw [h.unlocated] at hknown
  cases hknown

theorem NamesOnly.pointsAt_locatedAt (h : fault.NamesOnly path) {position : Position}
    (hP : P path position) : (fault.locatedAt position).PointsAt P := by
  intro named hnamed _
  rw [h named hnamed]
  exact hP

theorem bare_of {cause : Cause} (h : cause.path? = some path) : (of cause).Bare path :=
  ⟨fun _ hnamed => (Option.some.inj (h.symm.trans hnamed)).symm, rfl⟩

theorem bare_use (path : String) (flaw : UseFlaw) : (of (.use path flaw)).Bare path := bare_of rfl

theorem Bare.of_pathless {cause : Cause} (h : cause.path? = none) : (of cause).Bare path :=
  ⟨fun _ hnamed => (by cases h.symm.trans hnamed), rfl⟩

end Fault

open Fault

namespace FailsBy

variable {x : Except Fault α} {path : String} {P : String → Position → Prop}

theorem of_pathless (h : FailsBy Pathless x) : FailsBy (PointsAt P) x :=
  h.imp fun _ hfault => hfault.pointsAt

theorem of_bare (h : FailsBy (Bare path) x) : FailsBy (PointsAt P) x :=
  h.imp fun _ hfault => hfault.pointsAt

theorem namesOnly (h : FailsBy (Bare path) x) : FailsBy (NamesOnly path) x :=
  h.imp fun _ hfault => hfault.namesOnly

/-- A fault about a path is located where the path stands. -/
theorem locatedAt (h : FailsBy (NamesOnly path) x) {position : Position} (hP : P path position) :
    FailsBy (PointsAt P) (located position x) := by
  cases h with
  | ok => exact .ok
  | error hfault => exact .error (hfault.pointsAt_locatedAt hP)

theorem located_pathless (h : FailsBy Pathless x) (position : Position) :
    FailsBy (PointsAt P) (located position x) := by
  cases h with
  | ok => exact .ok
  | error hfault => exact .error (Pathless.pointsAt hfault)

end FailsBy

/-! ## Paths -/

theorem Schema.bare_container (name path : String) : FailsBy (Bare path) (s.container name) := by
  unfold container
  split
  · exact .ok
  · exact .error (.of_pathless rfl)

theorem Schema.bare_resource (name path : String) : FailsBy (Bare path) (s.resource name) := by
  refine (bare_container name path).bind fun c _ => ?_
  split
  · exact .ok
  · exact .error (.of_pathless rfl)

namespace Path

theorem bare_follow (text : String) (c : Container) (segments : List String) :
    FailsBy (Bare text) (follow s text c segments) := by
  have hbare : ∀ {x : Except Fault (List PathStep)} {f : List PathStep → List PathStep},
      FailsBy (Bare text) x → FailsBy (Bare text) (x.map f) := by
    intro x f hx
    cases hx with
    | ok => exact .ok
    | error hfault => exact .error hfault
  fun_induction follow s text c segments with
  | case1 | case3 => exact .ok
  | case4 _ _ _ _ _ _ _ _ _ ih | case6 _ _ _ _ _ _ _ _ ih => exact hbare ih
  | _ => exact .error (bare_of rfl)

theorem bare_resolve (start text : String) : FailsBy (Bare text) (resolve s start text) := by
  refine (Schema.bare_container start text).bind fun c _ => ?_
  refine FailsBy.check (bare_of rfl) ?_
  exact (bare_follow text c _).bind fun steps _ => .ok

theorem bare_terminal {start text : String} {path : Path}
    (h : resolve s start text = .ok path) : FailsBy (Bare text) path.terminal := by
  unfold terminal
  split
  · exact .ok
  · rw [(resolve_ok h).1]
    exact .error (bare_of rfl)

theorem bare_checkEvaluable {start text : String} {path : Path}
    (h : resolve s start text = .ok path) : FailsBy (Bare text) (path.checkEvaluable s) := by
  unfold checkEvaluable
  split
  · rw [(resolve_ok h).1]
    exact .error (bare_of rfl)
  · exact .ok

end Path

/-! ## Lists -/

namespace SortOrder

theorem bare_sortedType (path : String) (type : ValueType) (byId : Bool) :
    FailsBy (Bare path) (sortedType s path type byId) := by
  unfold sortedType
  split
  · exact .error (bare_use path _)
  · exact .error (bare_use path _)
  · refine FailsBy.check (bare_use path _) ?_
    split
    · exact .ok
    · exact .error (bare_use path _)
  · exact FailsBy.check (bare_use path _) .ok

theorem bare_add (o : SortOrder) (direction : Direction) (path : String)
    (transform : Option Transform) (byId : Bool) :
    FailsBy (Bare path) (o.add s direction path transform byId) := by
  unfold add
  refine (Path.bare_resolve _ path).bind fun resolved hresolved => ?_
  refine (Path.bare_checkEvaluable hresolved).bind fun _ _ => ?_
  refine (Path.bare_terminal hresolved).bind fun p _ => ?_
  refine FailsBy.check (bare_use path _) ?_
  refine (bare_sortedType path p.type byId).bind fun sorted _ => ?_
  split
  · exact FailsBy.check (bare_use path _) .ok
  · exact .ok

end SortOrder

namespace Projection

theorem bare_includePath (p : Projection) (path : String) :
    FailsBy (Bare path) (p.includePath s path) := by
  refine (Path.bare_resolve _ path).bind fun resolved hresolved => ?_
  refine (Path.bare_terminal hresolved).bind fun q _ => ?_
  exact FailsBy.check (bare_use path _) .ok

theorem bare_excludePath (p : Projection) (path : String) :
    FailsBy (Bare path) (p.excludePath s path) := by
  refine (Path.bare_resolve _ path).bind fun resolved hresolved => ?_
  exact (Path.bare_terminal hresolved).bind fun q _ => .ok

theorem bare_fetchPath (p : Projection) (path : String) :
    FailsBy (Bare path) (p.fetchPath s path) := by
  refine (Path.bare_resolve _ path).bind fun resolved hresolved => ?_
  refine (Path.bare_terminal hresolved).bind fun q _ => ?_
  exact FailsBy.check (bare_use path _) .ok

theorem bare_scopePath (p : Projection) (path key : String) (filter : Filter) :
    FailsBy (Bare path) (p.scopePath s path key filter) := by
  refine (Path.bare_resolve _ path).bind fun resolved hresolved => ?_
  refine (Path.bare_checkEvaluable hresolved).bind fun _ _ => ?_
  refine (Path.bare_terminal hresolved).bind fun q _ => ?_
  split
  · exact FailsBy.check (bare_use path _) .ok
  · exact .error (bare_use path _)

end Projection

theorem References.bare_add (r : References) (path : String) :
    FailsBy (Bare path) (r.add s path) := by
  refine (Path.bare_resolve _ path).bind fun resolved hresolved => ?_
  refine (Path.bare_terminal hresolved).bind fun p _ => ?_
  exact FailsBy.check (bare_use path _) .ok

/-! ## Conditions -/

namespace Filter

theorem bare_withBasePath (f : Filter) (path : String) :
    FailsBy (Bare path) (f.withBasePath s path) := by
  unfold withBasePath
  refine FailsBy.check (.of_pathless rfl) ?_
  refine (Path.bare_resolve _ path).bind fun resolved hresolved => ?_
  refine (Path.bare_checkEvaluable hresolved).bind fun _ _ => ?_
  refine (Path.bare_terminal hresolved).bind fun p _ => ?_
  split
  · exact .ok
  · exact .error (bare_use path _)

theorem bare_referencedId (path : String) (type : ValueType) :
    FailsBy (Bare path) (referencedId s path type) := by
  unfold referencedId
  split
  · refine (Schema.bare_resource _ path).bind fun c _ => ?_
    split
    · exact .ok
    · exact .error (bare_use path _)
  · exact .error (bare_use path _)

theorem bare_testedType (path : String) (type : ValueType) (options : ConditionOptions) :
    FailsBy (Bare path) (testedType s path type options) := by
  obtain ⟨transform, kind, negated⟩ := options
  cases transform with
  | none =>
      cases kind with
      | value => exact .ok
      | key =>
          simp only [testedType]
          split
          · exact .ok
          · exact .error (bare_use path _)
      | id => exact (bare_referencedId path type).bind fun tested _ => .ok
  | some t =>
      have hresult : ∀ tested : ValueType, FailsBy (Bare path)
          (if t.appliesTo tested then pure t.resultType
            else throw (Fault.of (.use path (.transformOfNonString t.function.name)))) := by
        intro tested
        split
        · exact .ok
        · exact .error (bare_use path _)
      cases kind with
      | value => exact hresult type.leaf
      | key =>
          simp only [testedType]
          split
          · exact hresult _
          · exact .error (bare_use path _)
      | id => exact (bare_referencedId path type).bind fun tested _ => hresult tested

/-- An operand that cannot be read is the fault of the path that it is compared with. -/
theorem namesOnly_makeCondition (scope path : String) (options : ConditionOptions) (test : Test)
    (operands : List String) :
    FailsBy (NamesOnly path) (makeCondition s scope path options test operands) := by
  have hcount : FailsBy (Bare path) (checkOperandCount path test operands) :=
    FailsBy.check (bare_use path _) (FailsBy.check (bare_use path _) .ok)
  unfold makeCondition
  refine hcount.namesOnly.bind fun _ _ => ?_
  refine (Path.bare_resolve scope path).namesOnly.bind fun resolved hresolved => ?_
  refine (Path.bare_checkEvaluable hresolved).namesOnly.bind fun _ _ => ?_
  refine (Path.bare_terminal hresolved).namesOnly.bind fun p _ => ?_
  refine (bare_testedType path p.type options).namesOnly.bind fun tested _ => ?_
  split
  · exact .error (bare_use path _).namesOnly
  · refine (FailsBy.mapM fun text _ => ?_).bind fun values _ => .ok
    split
    · exact .ok
    · exact .error fun named hnamed => (Option.some.inj hnamed).symm

theorem namesOnly_addCondition (f : Filter) (number : Nat) (path : String)
    (options : ConditionOptions) (test : Test) (operands : List String) :
    FailsBy (NamesOnly path) (f.addCondition s number path options test operands) := by
  refine FailsBy.bind ?_ fun _ _ => ?_
  · unfold checkGroup
    split
    · exact .ok
    · exact .error (Bare.of_pathless rfl).namesOnly
  · exact (namesOnly_makeCondition f.scope path options test operands).bind fun c _ => .ok

end Filter

/-! ## What names no path -/

theorem Reader.pathless_readAll (what : String) (read : Reader α) (text : String) :
    FailsBy Pathless (Reader.readAll what read text) := by
  unfold readAll
  split
  · exact .ok
  · exact .error rfl

theorem FilterParameters.pathless_singleValue (name : String) (values : List String) :
    FailsBy Pathless (singleValue name values) := by
  unfold singleValue
  split
  · exact .ok
  · exact .error rfl

theorem pathless_additionalFilter (filters : NameMap Filter) (key : String) (position : Position) :
    FailsBy Pathless (additionalFilter filters key position) := by
  unfold additionalFilter
  split
  · exact .ok
  · exact .error rfl

namespace Qualifier

theorem pathless_number (f : TransformFunction) (index : Nat) (text : String) :
    FailsBy Pathless (Transform.number f index text) := by
  unfold Transform.number
  split
  · exact .ok
  · exact .error rfl

theorem pathless_ofName (name : String) (parameters : List String) :
    FailsBy Pathless (Transform.ofName name parameters) := by
  unfold Transform.ofName
  split
  · split
    · exact .ok
    · exact .ok
    · refine (pathless_number _ _ _).bind fun start _ => ?_
      exact (pathless_number _ _ _).bind fun count _ => .ok
    · split
      · split
        · exact (pathless_number _ _ _).bind fun width _ => .ok
        · exact .error rfl
      · exact .error rfl
    · exact .error rfl
  · exact .error rfl

theorem pathless_transform (q : Qualifier) : FailsBy Pathless q.transform := by
  unfold transform
  split
  · exact .ok
  · rename_i fault hfault
    have hnamed := pathless_ofName q.name q.parameters
    rw [hfault] at hnamed
    exact .error hnamed.fault

theorem pathless_ofCondition (qualifiers : List Qualifier) :
    FailsBy Pathless (ofCondition qualifiers) := by
  refine FailsBy.foldlM fun r q _ => ?_
  unfold readCondition
  refine FailsBy.check rfl ?_
  split
  · exact FailsBy.check rfl .ok
  · exact .ok
  · exact FailsBy.check rfl (q.pathless_transform.bind fun t _ => .ok)

theorem pathless_ofSort (qualifiers : List Qualifier) : FailsBy Pathless (ofSort qualifiers) := by
  refine FailsBy.foldlM fun r q _ => ?_
  unfold readSort
  refine FailsBy.check rfl ?_
  split
  · exact .ok
  · split
    · exact .ok
    · split
      · exact q.pathless_transform.bind fun t _ => .ok
      · exact .error rfl

end Qualifier

namespace Filter

theorem pathless_checkGroup (f : Filter) (number : Nat) : FailsBy Pathless (f.checkGroup number) := by
  unfold checkGroup
  split
  · exact .ok
  · exact .error rfl

theorem pathless_openGroup (f : Filter) (parent : Nat) (j : Junction) :
    FailsBy Pathless (f.openGroup parent j) :=
  (pathless_checkGroup f parent).bind fun _ _ => .ok

theorem pathless_reach (d : Draft) (around : Option Nat) (front segments : List String) :
    FailsBy Pathless (d.reach around front segments) := by
  induction segments generalizing d around front with
  | nil => exact .ok
  | cons segment rest ih =>
      unfold Draft.reach
      dsimp only
      split
      · exact ih _ _ _
      · split
        · exact ih _ _ _
        · exact (pathless_openGroup _ _ _).bind fun opened _ => ih _ _ _

theorem pathless_testAndOperands (name : String) (test : Option Test) (values : List String) :
    FailsBy Pathless (testAndOperands name test values) := by
  unfold testAndOperands
  split
  · exact .ok
  · split
    · exact .ok
    · dsimp only
      split
      · exact .ok
      · exact .error rfl

theorem pathless_junctionOf (group : GroupKey) (value : String) :
    FailsBy Pathless (junctionOf group value) := by
  unfold junctionOf
  split
  · exact .ok
  · split
    · exact .ok
    · exact .error rfl

/-! ## Parameters of filters -/

theorem pointsAt_start (resourceType : String) (base : Option String)
    (P : String → Position → Prop) : FailsBy (PointsAt P) (start s resourceType base) := by
  have hall : FailsBy (PointsAt P) (Filter.all s resourceType) := by
    exact (Schema.bare_resource resourceType "").of_bare.bind fun c _ => .ok
  refine hall.bind fun f _ => ?_
  cases base with
  | none => exact .ok
  | some path => exact (bare_withBasePath f path).of_bare

section Entries

variable {config : Configuration} {P : String → Position → Prop}

theorem pointsAt_addTests {paths : List PathText} (hpaths : ∀ path ∈ paths, P path.path path.position)
    (f : Filter) (number : Nat) (options : ConditionOptions) (test : Test)
    (operands : List String) :
    FailsBy (PointsAt P) (addTests s number options test operands f paths) := by
  refine FailsBy.foldlM fun f path hpath => ?_
  have hadd := namesOnly_addCondition (s := s) f number path.path options test operands
  split
  · exact .ok
  · rename_i fault hfault
    rw [hfault] at hadd
    exact .error (hadd.fault.pointsAt_locatedAt (hpaths path hpath))

theorem pointsAt_addConditionText {text : ConditionText}
    (hpaths : ∀ path ∈ text.paths, P path.path path.position) (f : Filter) (number : Nat)
    (name : String) (values : List String) :
    FailsBy (PointsAt P) (f.addConditionText s config number name text values) := by
  unfold addConditionText
  refine (Qualifier.pathless_ofCondition text.qualifiers).of_pathless.bind fun reading _ => ?_
  refine (pathless_testAndOperands name reading.test values).of_pathless.bind fun tested _ => ?_
  refine FailsBy.check (Pathless.pointsAt rfl) ?_
  split
  · refine (pathless_openGroup f number .disjunction).of_pathless.bind fun opened _ => ?_
    exact pointsAt_addTests hpaths opened.2 opened.1 _ _ _
  · exact pointsAt_addTests hpaths f number _ _ _

theorem pointsAt_addContent {e : FilterEntry}
    (hpaths : ∀ text, e.content = .condition text →
      ∀ path ∈ text.paths, P path.path path.position) (f : Filter) (number : Nat) :
    FailsBy (PointsAt P) (f.addContent s config number e) := by
  obtain ⟨name, group, content, values⟩ := e
  cases content with
  | junction =>
      refine FailsBy.of_pathless ?_
      refine (FilterParameters.pathless_singleValue name values).bind fun value _ => ?_
      refine (pathless_junctionOf group value).bind fun j _ => ?_
      exact (pathless_checkGroup _ _).bind fun _ _ => .ok
  | condition text => exact pointsAt_addConditionText (hpaths text rfl) f number name values

theorem pointsAt_addEntry {e : FilterEntry}
    (hpaths : ∀ text, e.content = .condition text →
      ∀ path ∈ text.paths, P path.path path.position) (d : Draft) :
    FailsBy (PointsAt P) (d.addEntry s config e) := by
  refine FailsBy.check (Pathless.pointsAt rfl) ?_
  refine (pathless_reach d none [] e.group.segments).of_pathless.bind fun reached _ => ?_
  exact (pointsAt_addContent hpaths _ _).bind fun f _ => .ok

theorem pointsAt_build {p : FilterParameters}
    (hpaths : ∀ e ∈ p.entries, ∀ text, e.content = .condition text →
      ∀ path ∈ text.paths, P path.path path.position) (resourceType : String) :
    FailsBy (PointsAt P) (build s config resourceType p) := by
  obtain ⟨base, entries⟩ := p
  rw [build_eq]
  refine (pointsAt_start resourceType base P).bind fun f _ => ?_
  refine FailsBy.bind ?_ fun d _ => .ok
  exact FailsBy.foldlM fun d e he => pointsAt_addEntry (hpaths e he) d

end Entries

end Filter

/-! ## Requests -/

/-- The texts of a request that paths are read from: the names of the parameters of its filters, and
the values of its lists. -/
inductive Parameters.HasText (config : Configuration) (params : Parameters) : String → Prop
  | name {name root : String} (hname : name ∈ params.names) (hother : name ∉ config.parameterNames)
      (hroot : FilterParameter.root? name = some root)
      (hcounts : root = config.filterKey ∨ FilterParameters.Refers config params root) :
      HasText config params name
  | value {parameter text : String}
      (hlist : parameter ∈ [config.orderParam, config.propertiesParam, config.referencesParam])
      (htext : text ∈ params.values parameter) : HasText config params text

/-- A path stands at a position in a text of the request. -/
def Parameters.HasPath (config : Configuration) (params : Parameters) (path : String)
    (position : Position) : Prop :=
  ∃ text, params.HasText config text ∧ Text.HasPath text path position

section Lists

variable {P : String → Position → Prop} {text : String}

theorem SortOrder.pointsAt_compile (hP : ∀ path position, Text.HasPath text path position →
      P path position) (filters : NameMap Filter) (o : SortOrder) :
    FailsBy (PointsAt P) (o.compile s filters text) := by
  refine (Reader.pathless_readAll _ _ text).of_pathless.bind fun elements helements => ?_
  refine FailsBy.foldlM fun o element helement => ?_
  cases element with
  | segment key descending position =>
      refine (pathless_additionalFilter filters key position).of_pathless.bind fun f _ => ?_
      refine FailsBy.located_pathless ?_ position
      exact FailsBy.check (P := Pathless) rfl .ok
  | property path qualifiers =>
      refine (Qualifier.pathless_ofSort qualifiers).of_pathless.bind fun reading _ => ?_
      have hadd := bare_add (s := s) o (reading.direction.getD .asc) path.path reading.transform
        reading.byId
      exact hadd.namesOnly.locatedAt (hP _ _ (OrderText.hasPath_of_parse helements helement))

theorem Projection.pointsAt_compile (hP : ∀ path position, Text.HasPath text path position →
      P path position) (filters : NameMap Filter) (p : Projection) :
    FailsBy (PointsAt P) (p.compile s filters text) := by
  refine (Reader.pathless_readAll _ _ text).of_pathless.bind fun elements helements => ?_
  refine FailsBy.foldlM fun p element helement => ?_
  have hplace : ∀ {path : PathText}, element.path? = some path → P path.path path.position :=
    fun hpath => hP _ _ (ProjectionText.hasPath_of_parse helements helement hpath)
  cases element with
  | includeAll position =>
      refine FailsBy.located_pathless ?_ position
      exact FailsBy.check (P := Pathless) rfl (FailsBy.check (P := Pathless) rfl .ok)
  | includePath path => exact (bare_includePath p path.path).namesOnly.locatedAt (hplace rfl)
  | excludePath path => exact (bare_excludePath p path.path).namesOnly.locatedAt (hplace rfl)
  | fetchPath path => exact (bare_fetchPath p path.path).namesOnly.locatedAt (hplace rfl)
  | scopePath path key =>
      refine (pathless_additionalFilter filters key path.position).of_pathless.bind fun f _ => ?_
      exact (bare_scopePath p path.path key f).namesOnly.locatedAt (hplace rfl)

theorem References.pointsAt_compile (hP : ∀ path position, Text.HasPath text path position →
      P path position) (r : References) : FailsBy (PointsAt P) (r.compile s text) := by
  refine (Reader.pathless_readAll _ _ text).of_pathless.bind fun paths hpaths => ?_
  refine FailsBy.foldlM fun r path hpath => ?_
  exact (bare_add r path.path).namesOnly.locatedAt
    (hP _ _ (PathText.hasPath_of_parseList hpaths hpath))

end Lists

namespace FilterParameters

theorem pathless_collect (config : Configuration) (keys : List String) (params : Parameters) :
    FailsBy Pathless (collect config keys params) := by
  refine FailsBy.foldlM fun groups entry _ => ?_
  refine (Reader.pathless_readAll _ _ entry.1).bind fun parameter _ => ?_
  cases parameter with
  | basePath key => exact (pathless_singleValue entry.1 entry.2).bind fun path _ => .ok
  | junction group => exact .ok
  | condition group text => exact .ok

theorem pathless_referredKeys (config : Configuration) (params : Parameters) :
    FailsBy Pathless (referredKeys config params) := by
  refine (FailsBy.mapM fun text _ => Reader.pathless_readAll _ _ text).bind fun orders _ => ?_
  refine (FailsBy.mapM fun text _ => Reader.pathless_readAll _ _ text).bind fun projections _ => ?_
  exact .ok

/-- The paths of the conditions of a filter stand in names of parameters. -/
theorem hasPath_of_collect {config : Configuration} {keys : List String} {params : Parameters}
    {groups : NameMap FilterParameters} (hkeys : referredKeys config params = .ok keys)
    (hgroups : collect config keys params = .ok groups) {key : String} {e : FilterEntry}
    (he : e ∈ (of groups key).entries) {text : ConditionText} (htext : e.content = .condition text)
    {path : PathText} (hpath : path ∈ text.paths) :
    params.HasPath config path.path path.position := by
  obtain ⟨p, hadded, hparse, -, hentry⟩ := ((collected_of_collect hgroups).entries key e).1 he
  obtain ⟨hmem, haddressed⟩ := List.mem_filter.1 hadded
  obtain ⟨root, hroot, hother, hcounts⟩ := isAddressed_iff.1 haddressed
  obtain rfl : p = .condition e.group text := by
    obtain ⟨-, -, ⟨-, hcontent⟩ | ⟨own, rfl, hcontent⟩⟩ := entryFor?_eq_some_iff.1 hentry
    · rw [hcontent] at htext
      cases htext
    · rw [hcontent] at htext
      cases htext
      rfl
  refine ⟨e.name, .name (List.mem_map_of_mem hmem) hother hroot ?_,
    FilterParameter.hasPath_of_parse hparse hpath⟩
  exact hcounts.imp id (mem_referredKeys hkeys root).1

end FilterParameters

namespace Specification

variable {config : Configuration} {params : Parameters}

theorem bare_all (resourceType path : String) : FailsBy (Bare path) (all s resourceType) := by
  have hresource : ∀ {β : Type} {f : Container → Except Fault β},
      (∀ c, FailsBy (Bare path) (f c)) → FailsBy (Bare path) (s.resource resourceType >>= f) :=
    fun hf => (Schema.bare_resource resourceType path).bind fun c _ => hf c
  refine hresource fun c => ?_
  refine (hresource fun c => .ok).bind fun filter _ => ?_
  refine (hresource fun c => .ok).bind fun order _ => ?_
  refine (hresource fun c => .ok).bind fun projection _ => ?_
  exact (hresource fun c => .ok).bind fun references _ => .ok

/-- Where each text is read, a fault points into that text. -/
theorem pointsAt_compileAll (resourceType : String) :
    FailsBy (PointsAt (params.HasPath config)) (compile s config resourceType params) := by
  have hvalue : ∀ {parameter text : String},
      parameter ∈ [config.orderParam, config.propertiesParam, config.referencesParam] →
      text ∈ params.values parameter → ∀ path position, Text.HasPath text path position →
        params.HasPath config path position :=
    fun hlist htext path position hpath => ⟨_, .value hlist htext, hpath⟩
  refine (bare_all resourceType "").of_bare.bind fun start _ => ?_
  refine (FilterParameters.pathless_referredKeys config params).of_pathless.bind fun keys hkeys => ?_
  refine (FilterParameters.pathless_collect config keys params).of_pathless.bind
    fun groups hgroups => ?_
  have hbuild : ∀ key, FailsBy (PointsAt (params.HasPath config))
      (Filter.build s config start.resourceType (FilterParameters.of groups key)) := fun key =>
    Filter.pointsAt_build (fun e he text htext path hpath =>
      FilterParameters.hasPath_of_collect hkeys hgroups he htext hpath) _
  refine FailsBy.bind (FailsBy.of_pathless ?_) fun _ _ => ?_
  · unfold checkMain
    split
    · exact .error rfl
    · exact .ok
  refine (hbuild config.filterKey).bind fun filter _ => ?_
  refine (FailsBy.mapM fun entry hentry => ?_).bind fun additional _ => ?_
  · obtain ⟨key, p⟩ := entry
    have hfound := NameMap.find?_of_mem (FilterParameters.collected_of_collect hgroups).sorted
      (List.mem_filter.1 hentry).1
    have hp : FilterParameters.of groups key = p := by
      rw [FilterParameters.of, hfound, Option.getD_some]
    exact (hp ▸ hbuild key).bind fun f _ => .ok
  refine (FailsBy.foldlM fun o text htext =>
    SortOrder.pointsAt_compile (hvalue (by simp) htext) additional o).bind fun order _ => ?_
  refine (FailsBy.foldlM fun p text htext =>
    Projection.pointsAt_compile (hvalue (by simp) htext) additional p).bind fun projection _ => ?_
  refine (FailsBy.foldlM fun r text htext =>
    References.pointsAt_compile (hvalue (by simp) htext) r).bind fun references _ => ?_
  cases params.firstNonEmpty? config.rangeParam with
  | none => exact .ok
  | some text =>
      have hrange : FailsBy Pathless (some <$> Range.parse text) :=
        (Reader.pathless_readAll "range" Range.reader text).bind fun _ _ => .ok
      exact hrange.of_pathless.bind fun range _ => .ok

/-- A fault with a path and a known position points at that path in a text of the request. -/
theorem pointsAt_of_compile {resourceType : String} {fault : Fault}
    (h : compile s config resourceType params = .error fault) {path : String}
    (hpath : fault.path = some path) (hknown : fault.position.isUnknown = false) :
    ∃ text, params.HasText config text ∧ Text.HasPath text path fault.position := by
  have hpoints : FailsBy (PointsAt (params.HasPath config)) (compile s config resourceType params) :=
    pointsAt_compileAll resourceType
  rw [h] at hpoints
  exact hpoints.fault path hpath hknown

theorem misspelledRequest_position : ∃ fault,
    compile orderSchema {} "User" misspelledRequest = .error fault ∧
      fault.path = some "order.customers" ∧ fault.position.isUnknown = false ∧
        fault.position = ⟨2, 1, 3⟩ ∧ ∃ text, misspelledRequest.HasText {} text ∧
          Text.HasPath text "order.customers" fault.position := by
  have hcheck : (match compile orderSchema {} "User" misspelledRequest with
      | .ok _ => false
      | .error fault =>
        fault.path == some "order.customers" && fault.position == ⟨2, 1, 3⟩) = true := by
    decide +kernel
  cases hcompile : compile orderSchema {} "User" misspelledRequest with
  | ok spec =>
      rw [hcompile] at hcheck
      cases hcheck
  | error fault =>
      rw [hcompile] at hcheck
      obtain ⟨hpath, hposition⟩ : fault.path = some "order.customers" ∧
          fault.position = ⟨2, 1, 3⟩ := by simpa using hcheck
      have hknown : fault.position.isUnknown = false := by
        rw [hposition]
        rfl
      exact ⟨fault, rfl, hpath, hknown, hposition, pointsAt_of_compile hcompile hpath hknown⟩

end Specification

end ResourceQuery
