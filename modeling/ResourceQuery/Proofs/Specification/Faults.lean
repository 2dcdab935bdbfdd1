import ResourceQuery.Compile.Specification
import ResourceQuery.Proofs.Filter.Faults
/-!
# Faults of specifications

A request that cannot be compiled is to blame for it (`Specification.isRequest_of_compile`): over a
schema that was built and a resource type that it has, no fault of the schema, of the configuration
or of a caller comes up, whatever the parameters are.
-/

namespace ResourceQuery

variable {s : Schema} {c : Container}

theorem Answers.located {α : Type} {P : α → Prop} {x : Except Fault α} (h : Answers P x)
    (position : Position) : Answers P (located position x) := by
  cases h with
  | ok ha => exact .ok ha
  | refused hfault => exact .refused hfault

theorem answered_additionalFilter (filters : NameMap Filter) (key : String) (position : Position) :
    Answered (additionalFilter filters key position) := by
  unfold additionalFilter
  split
  · exact .ok trivial
  · exact .refused rfl

/-! ## Lists

The paths of a list start at one resource, which no element changes. -/

namespace SortOrder

theorem answered_sortedType (path : String) (type : ValueType) (byId : Bool) :
    Answered (sortedType s path type byId) := by
  unfold sortedType
  split
  · exact .refused rfl
  · exact .refused rfl
  · refine Answers.check rfl fun _ => ?_
    split
    · exact .ok trivial
    · exact .refused rfl
  · exact Answers.check rfl fun _ => .ok trivial

theorem answers_add {o : SortOrder} (hc : s.container o.resourceType = .ok c)
    (direction : Direction) (path : String) (transform : Option Transform) (byId : Bool) :
    Answers (fun o' => o'.resourceType = o.resourceType)
      (o.add s direction path transform byId) := by
  unfold add
  refine (Path.answered_resolve hc path).bind fun resolved _ => ?_
  refine (Path.answered_checkEvaluable s resolved).bind fun _ _ => ?_
  refine (Path.answered_terminal resolved).bind fun p _ => ?_
  refine Answers.check rfl fun _ => ?_
  refine (answered_sortedType path p.type byId).bind fun sorted _ => ?_
  split
  · exact Answers.check rfl fun _ => .ok rfl
  · exact .ok rfl

theorem answers_addText {o : SortOrder} (hc : s.container o.resourceType = .ok c)
    (filters : NameMap Filter) (text : OrderText) :
    Answers (fun o' => o'.resourceType = o.resourceType) (o.addText s filters text) := by
  cases text with
  | segment key descending position =>
      refine (answered_additionalFilter filters key position).bind fun f _ => ?_
      refine Answers.located ?_ position
      unfold addSegment
      exact Answers.check rfl fun _ => .ok rfl
  | property path qualifiers =>
      refine (Qualifier.answered_ofSort qualifiers).bind fun reading _ => ?_
      exact (answers_add hc _ _ _ _).located path.position

theorem answers_compile {o : SortOrder} (hc : s.container o.resourceType = .ok c)
    (filters : NameMap Filter) (text : String) :
    Answers (fun o' => o'.resourceType = o.resourceType) (o.compile s filters text) := by
  refine (Reader.answered_readAll _ _ text).bind fun texts _ => ?_
  apply Answers.foldlM_keeps SortOrder.resourceType
  exact fun o' ho text _ => answers_addText (ho ▸ hc) filters text

end SortOrder

namespace Projection

theorem answers_addText {p : Projection} (hc : s.container p.resourceType = .ok c)
    (filters : NameMap Filter) (text : ProjectionText) :
    Answers (fun q => q.resourceType = p.resourceType) (p.addText s filters text) := by
  cases text with
  | includeAll position =>
      refine Answers.located ?_ position
      exact Answers.check rfl fun _ => Answers.check rfl fun _ => .ok rfl
  | includePath path =>
      refine Answers.located ?_ path.position
      refine (Path.answered_resolve hc path.path).bind fun resolved _ => ?_
      refine (Path.answered_terminal resolved).bind fun q _ => ?_
      exact Answers.check rfl fun _ => .ok rfl
  | excludePath path =>
      refine Answers.located ?_ path.position
      refine (Path.answered_resolve hc path.path).bind fun resolved _ => ?_
      exact (Path.answered_terminal resolved).bind fun q _ => .ok rfl
  | fetchPath path =>
      refine Answers.located ?_ path.position
      refine (Path.answered_resolve hc path.path).bind fun resolved _ => ?_
      refine (Path.answered_terminal resolved).bind fun q _ => ?_
      exact Answers.check rfl fun _ => .ok rfl
  | scopePath path key =>
      refine (answered_additionalFilter filters key path.position).bind fun f _ => ?_
      refine Answers.located ?_ path.position
      refine (Path.answered_resolve hc path.path).bind fun resolved _ => ?_
      refine (Path.answered_checkEvaluable s resolved).bind fun _ _ => ?_
      refine (Path.answered_terminal resolved).bind fun q _ => ?_
      split
      · exact Answers.check rfl fun _ => .ok rfl
      · exact .refused rfl

theorem answers_compile {p : Projection} (hc : s.container p.resourceType = .ok c)
    (filters : NameMap Filter) (text : String) :
    Answers (fun q => q.resourceType = p.resourceType) (p.compile s filters text) := by
  refine (Reader.answered_readAll _ _ text).bind fun texts _ => ?_
  apply Answers.foldlM_keeps Projection.resourceType
  exact fun q hq text _ => answers_addText (hq ▸ hc) filters text

end Projection

namespace References

theorem answers_add {r : References} (hc : s.container r.resourceType = .ok c) (path : String) :
    Answers (fun r' => r'.resourceType = r.resourceType) (r.add s path) := by
  unfold add
  refine (Path.answered_resolve hc path).bind fun resolved _ => ?_
  refine (Path.answered_terminal resolved).bind fun p _ => ?_
  exact Answers.check rfl fun _ => .ok rfl

theorem answers_compile {r : References} (hc : s.container r.resourceType = .ok c)
    (text : String) :
    Answers (fun r' => r'.resourceType = r.resourceType) (r.compile s text) := by
  refine (Reader.answered_readAll _ _ text).bind fun paths _ => ?_
  apply Answers.foldlM_keeps References.resourceType
  exact fun r' hr path _ => (answers_add (hr ▸ hc) path.path).located path.position

end References

namespace FilterParameters

theorem answered_addParameter (groups : NameMap FilterParameters) (name : String)
    (values : List String) : Answered (addParameter groups name values) := by
  unfold addParameter
  refine (Reader.answered_readAll _ _ name).bind fun parameter _ => ?_
  cases parameter with
  | basePath key => exact (answered_singleValue name values).bind fun path _ => .ok trivial
  | junction group => exact .ok trivial
  | condition group text => exact .ok trivial

theorem answered_collect (config : Configuration) (keys : List String) (params : Parameters) :
    Answered (collect config keys params) :=
  Answers.foldlM (fun groups entry _ _ => answered_addParameter groups entry.1 entry.2) trivial

theorem answered_referredKeys (config : Configuration) (params : Parameters) :
    Answered (referredKeys config params) := by
  unfold referredKeys
  refine (Answers.mapM fun text _ => Reader.answered_readAll _ _ text).bind fun orders _ => ?_
  refine (Answers.mapM fun text _ => Reader.answered_readAll _ _ text).bind fun projections _ => ?_
  exact .ok trivial

end FilterParameters

theorem Filter.answered_compile (hregistered : s.Everywhere fun s _ p => p.type.Registered s)
    {resourceType : String} (hc : s.resource resourceType = .ok c) (config : Configuration)
    (params : Parameters) : Answered (Filter.compile s config resourceType params) := by
  obtain rfl : c.name = resourceType := (Schema.container?_some (Schema.resource_ok hc).1).2
  unfold Filter.compile
  refine (FilterParameters.answered_collect config [] params).bind fun groups _ => ?_
  rw [hc, ok_bind]
  exact answered_build hregistered hc _

namespace Specification

theorem answered_checkMain (config : Configuration) (p : FilterParameters) :
    Answered (checkMain config p) := by
  unfold checkMain
  split
  · exact .refused rfl
  · exact .ok trivial

theorem answered_compile (hregistered : s.Everywhere fun s _ p => p.type.Registered s)
    {resourceType : String} (hc : s.resource resourceType = .ok c) (config : Configuration)
    (params : Parameters) : Answered (compile s config resourceType params) := by
  obtain rfl : c.name = resourceType := (Schema.container?_some (Schema.resource_ok hc).1).2
  have hcontainer : s.container c.name = .ok c :=
    Schema.container_eq_ok_iff.2 (Schema.resource_ok hc).1
  have hstart : ∃ start, all s c.name = .ok start ∧ start.resourceType = c.name ∧
      start.order.resourceType = c.name ∧ start.projection.resourceType = c.name ∧
        start.references.resourceType = c.name := by
    simp only [all, Filter.all, SortOrder.none, Projection.none, References.none, hc, ok_bind]
    exact ⟨_, rfl, rfl, rfl, rfl, rfl⟩
  obtain ⟨start, hall, hown, horder, hprojection, hreferences⟩ := hstart
  unfold compile
  rw [hall, ok_bind, hown]
  refine (FilterParameters.answered_referredKeys config params).bind fun keys _ => ?_
  refine (FilterParameters.answered_collect config keys params).bind fun groups _ => ?_
  refine (answered_checkMain config _).bind fun _ _ => ?_
  refine (Filter.answered_build hregistered hc _).bind fun filter _ => ?_
  refine (Answers.mapM (Q := fun _ => True) fun entry _ => ?_).bind fun additional _ => ?_
  · exact (Filter.answered_build hregistered hc entry.2).bind fun f _ => .ok trivial
  rw [← horder] at hcontainer
  refine (Answers.foldlM_keeps SortOrder.resourceType fun o ho text _ =>
    SortOrder.answers_compile (ho ▸ hcontainer) additional text).bind fun order _ => ?_
  rw [horder, ← hprojection] at hcontainer
  refine (Answers.foldlM_keeps Projection.resourceType fun p hp text _ =>
    Projection.answers_compile (hp ▸ hcontainer) additional text).bind fun projection _ => ?_
  rw [hprojection, ← hreferences] at hcontainer
  refine (Answers.foldlM_keeps References.resourceType fun r hr text _ =>
    References.answers_compile (hr ▸ hcontainer) text).bind fun references _ => ?_
  cases params.firstNonEmpty? config.rangeParam with
  | none => exact .ok trivial
  | some text =>
      have hrange : Answered (some <$> Range.parse text) :=
        (Reader.answered_readAll "range" Range.reader text).map fun _ _ => trivial
      exact hrange.bind fun range _ => .ok trivial

/-- A request that fails is itself to blame, whether all of it is compiled or its main filter. -/
theorem isRequest_of_compile {d : SchemaDocument} (hbuild : d.build = .ok s)
    {resourceType : String} (hc : s.resource resourceType = .ok c) (config : Configuration)
    (params : Parameters) {fault : Fault}
    (h : compile s config resourceType params = .error fault ∨
      Filter.compile s config resourceType params = .error fault) :
    fault.kind.isRequest = true ∧
      fault.kind ≠ .schema ∧ fault.kind ≠ .configuration ∧ fault.kind ≠ .general := by
  have hregistered : s.Everywhere fun s _ p => p.type.Registered s := fun container hmem p hp =>
    (SchemaDocument.build_sound hbuild container hmem p hp).registered
  have hrequest : fault.kind.isRequest = true := by
    rcases h with h | h
    · exact (answered_compile hregistered hc config params).fault h
    · exact (Filter.answered_compile hregistered hc config params).fault h
  exact ⟨hrequest, Fault.Kind.isRequest_iff.1 hrequest⟩

/-- A condition on a property that orders do not have. -/
def misspelledRequest : Parameters := Parameters.ofPairs [("f$order.customers", "1")]

theorem misspelledRequest_isRequest :
    orderDocument.build = .ok orderSchema ∧ orderSchema.resource "User" = .ok userContainer ∧
      ∃ fault, (compile orderSchema {} "User" misspelledRequest = .error fault ∨
          Filter.compile orderSchema {} "User" misspelledRequest = .error fault) ∧
        fault.message = "Unknown property 'customers' in 'Order'" ∧
        fault.kind.isRequest = true ∧
          fault.kind ≠ .schema ∧ fault.kind ≠ .configuration ∧ fault.kind ≠ .general := by
  have hbuild : orderDocument.build = .ok orderSchema := rfl
  have hresource : orderSchema.resource "User" = .ok userContainer := rfl
  have hcheck : (match compile orderSchema {} "User" misspelledRequest with
      | .ok _ => false
      | .error fault => fault.message == "Unknown property 'customers' in 'Order'") = true := by
    decide +kernel
  cases hcompile : compile orderSchema {} "User" misspelledRequest with
  | ok spec =>
      rw [hcompile] at hcheck
      cases hcheck
  | error fault =>
      rw [hcompile] at hcheck
      exact ⟨hbuild, hresource, fault, .inl rfl, by simpa using hcheck,
        isRequest_of_compile hbuild hresource {} misspelledRequest (.inl hcompile)⟩

end Specification

end ResourceQuery
