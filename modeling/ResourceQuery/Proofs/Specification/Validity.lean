import ResourceQuery.Proofs.Compile.Validity
import ResourceQuery.Proofs.Specification.Recovery
/-!
# Valid specifications

What a request is compiled to is valid as a whole: there are filters for exactly the keys that its
order and projection refer to, segments and scopes carry the filters of their keys, every filter
starts where its conditions do, and all conditions are valid (`Specification.compile_valid`).
-/

namespace ResourceQuery

namespace FilterParameters

/-- The order or the projection of a request names the key of a filter. -/
def Refers (config : Configuration) (params : Parameters) (key : String) : Prop :=
  (∃ text ∈ params.values config.orderParam, ∃ elements, OrderText.parse text = .ok elements ∧
    key ∈ orderKeys elements) ∨
  ∃ text ∈ params.values config.propertiesParam, ∃ elements,
    ProjectionText.parse text = .ok elements ∧ key ∈ projectionKeys elements

theorem mem_referredKeys {config : Configuration} {params : Parameters} {keys : List String}
    (h : referredKeys config params = .ok keys) (key : String) :
    key ∈ keys ↔ Refers config params key := by
  simp only [referredKeys, bind_eq_ok_iff] at h
  obtain ⟨orders, horders, projections, hprojections, h⟩ := h
  cases h
  simp only [List.mem_append, List.mem_flatMap, mem_of_mapM_eq_ok horders,
    mem_of_mapM_eq_ok hprojections, Refers]
  refine or_congr ?_ ?_ <;>
  · constructor
    · rintro ⟨elements, ⟨text, htext, hparse⟩, hkey⟩
      exact ⟨text, htext, elements, hparse, hkey⟩
    · rintro ⟨text, htext, elements, hparse, hkey⟩
      exact ⟨elements, ⟨text, htext, hparse⟩, hkey⟩

end FilterParameters

/-- What the elements of parameter values add to one after the other. -/
theorem accumulates_values {σ τ : Type} {parse : String → Except Fault (List τ)}
    {add : σ → τ → Except Fault σ} (I : List τ → σ → Prop)
    (hstep : ∀ before text o o', I before o → add o text = .ok o' → I (before ++ [text]) o')
    {values : List String} {o o' : σ} (ho : I [] o)
    (h : values.foldlM (fun o value => parse value >>= fun texts => texts.foldlM add o) o =
      .ok o') :
    ∃ elements, values.mapM parse = .ok elements ∧ I elements.flatten o' := by
  have hstart : ∃ elements, ([] : List String).mapM parse = .ok elements ∧
      I elements.flatten o := ⟨[], rfl, ho⟩
  refine foldlM_accumulates (fun before o => ∃ elements, before.mapM parse = .ok elements ∧
    I elements.flatten o) ?_ hstart h
  rintro before value o o' ⟨elements, helements, hI⟩ hvalue
  obtain ⟨texts, htexts, hadd⟩ := bind_eq_ok_iff.1 hvalue
  refine ⟨elements ++ [texts], ?_, ?_⟩
  · rw [mapM_eq_ok_iff] at helements ⊢
    simp [helements, htexts]
  · have hrun := foldlM_accumulates I hstep hI hadd
    simpa using hrun

namespace SortOrder

variable {s : Schema} {filters : NameMap Filter}

/-- The segments are those of the elements, in their order. -/
def Lists (elements : List OrderText) (o : SortOrder) : Prop :=
  o.segments.map Segment.key = FilterParameters.orderKeys elements

theorem lists_addText {before : List OrderText} {text : OrderText} {o o' : SortOrder}
    (ho : o.Lists before) (h : o.addText s filters text = .ok o') :
    o'.Lists (before ++ [text]) := by
  have hkeys : o'.segments.map Segment.key =
      o.segments.map Segment.key ++ FilterParameters.orderKeys [text] := by
    cases text with
    | segment key descending position =>
        obtain ⟨f, -, h⟩ := bind_eq_ok_iff.1 h
        have hadd := located_eq_ok_iff.1 h
        unfold addSegment at hadd
        split at hadd
        · cases hadd
        · cases hadd
          simp [FilterParameters.orderKeys]
    | property path qualifiers =>
        obtain ⟨reading, -, h⟩ := bind_eq_ok_iff.1 h
        obtain ⟨p, -, -, rfl, -⟩ := add_ok (located_eq_ok_iff.1 h)
        simp [FilterParameters.orderKeys]
  rw [Lists, hkeys, ho, FilterParameters.orderKeys, FilterParameters.orderKeys,
    FilterParameters.orderKeys, List.filterMap_append]

theorem lists_of_values {resourceType : String} {values : List String} {o : SortOrder}
    (h : values.foldlM (compile s filters) ⟨resourceType, [], []⟩ = .ok o) :
    ∃ elements, values.mapM OrderText.parse = .ok elements ∧ o.Lists elements.flatten :=
  accumulates_values (fun elements o => o.Lists elements) (fun _ _ _ _ ho h => lists_addText ho h)
    rfl h

end SortOrder

namespace Projection

variable {s : Schema} {filters : NameMap Filter}

/-- The key of the filter that an element puts on a path. -/
def scopeKey? (path : String) : ProjectionText → Option String
  | .scopePath text key => if text.path = path then some key else Option.none
  | _ => Option.none

/-- Filters are found for all elements that name one, and of several on one path the last one
counts. -/
structure Lists (filters : NameMap Filter) (elements : List ProjectionText) (p : Projection) :
    Prop where
  found : ∀ key ∈ FilterParameters.projectionKeys elements, (filters.find? key).isSome
  last : ∀ path, (p.scopes.find? path).map AggregateScope.key =
    (elements.filterMap (scopeKey? path)).getLast?

theorem lists_addText {before : List ProjectionText} {text : ProjectionText} {p q : Projection}
    (hp : p.Lists filters before) (h : p.addText s filters text = .ok q) :
    q.Lists filters (before ++ [text]) := by
  -- an element of another kind names no filter and leaves the scopes as they are
  have hother : FilterParameters.projectionKeys [text] = [] →
      (∀ path, scopeKey? path text = Option.none) → q.scopes = p.scopes →
      q.Lists filters (before ++ [text]) := by
    intro hkeys hpath hscopes
    constructor
    · intro key hkey
      rw [FilterParameters.projectionKeys, List.filterMap_append] at hkey
      rw [FilterParameters.projectionKeys] at hkeys
      rw [hkeys, List.append_nil] at hkey
      exact hp.found key hkey
    · intro path
      rw [hscopes, hp.last, List.filterMap_append, List.filterMap_cons_none (hpath path)]
      simp
  cases text with
  | includeAll position =>
      obtain ⟨-, -, rfl⟩ := includeAll_eq_ok_iff.1 (located_eq_ok_iff.1 h)
      exact hother rfl (fun _ => rfl) rfl
  | includePath path =>
      obtain ⟨_, _, -, -, -, rfl⟩ := includePath_eq_ok_iff.1 (located_eq_ok_iff.1 h)
      exact hother rfl (fun _ => rfl) rfl
  | excludePath path =>
      obtain ⟨_, _, -, -, rfl⟩ := excludePath_eq_ok_iff.1 (located_eq_ok_iff.1 h)
      exact hother rfl (fun _ => rfl) rfl
  | fetchPath path =>
      obtain ⟨_, _, -, -, -, rfl⟩ := fetchPath_eq_ok_iff.1 (located_eq_ok_iff.1 h)
      exact hother rfl (fun _ => rfl) rfl
  | scopePath path key =>
      obtain ⟨f, hf, hadd⟩ := bind_eq_ok_iff.1 h
      obtain ⟨-, rfl⟩ := scopePath_eq_ok_iff.1 (located_eq_ok_iff.1 hadd)
      constructor
      · intro other hkey
        rw [FilterParameters.projectionKeys, List.filterMap_append] at hkey
        rcases List.mem_append.1 hkey with hkey | hkey
        · exact hp.found other hkey
        · obtain rfl : other = key := by simpa using hkey
          rw [additionalFilter_eq_ok_iff.1 hf]
          rfl
      · intro other
        show ((p.scopes.insert path.path ⟨key, f⟩).find? other).map _ = _
        rw [NameMap.find?_insert, List.filterMap_append]
        by_cases hpath : path.path = other
        · simp [scopeKey?, hpath]
        · simp [scopeKey?, hpath, hp.last]

theorem lists_of_values {resourceType : String} {values : List String} {p : Projection}
    (h : values.foldlM (compile s filters) ⟨resourceType, false, [], [], []⟩ = .ok p) :
    ∃ elements, values.mapM ProjectionText.parse = .ok elements ∧
      p.Lists filters elements.flatten :=
  accumulates_values (fun elements p => p.Lists filters elements)
    (fun _ _ _ _ hp h => lists_addText hp h)
    ⟨fun _ hkey => by simp [FilterParameters.projectionKeys] at hkey, fun _ => rfl⟩ h

end Projection

namespace Filter

theorem scoped_of_start {s : Schema} {resourceType : String} {base : Option String} {f : Filter}
    (h : start s resourceType base = .ok f) : f.Scoped s resourceType := by
  obtain ⟨all, hall, h⟩ := bind_eq_ok_iff.1 h
  obtain ⟨c, hc, hall⟩ := bind_eq_ok_iff.1 hall
  have hname : c.name = resourceType := (Schema.container?_some (Schema.resource_ok hc).1).2
  cases hall
  cases base with
  | none =>
      cases h
      exact hname
  | some path =>
      have hscoped := scoped_of_withBasePath h
      rwa [hname] at hscoped

end Filter

namespace Specification

variable {s : Schema} {config : Configuration} {params : Parameters} {spec : Specification}

/-- What holds of a specification as a whole. -/
structure Valid (s : Schema) (config : Configuration) (params : Parameters)
    (spec : Specification) : Prop where
  /-- There are filters for the keys that are referred to, and for no others. -/
  additional : spec.additionalFilters.Sorted ∧ ∀ key, key ∈ spec.additionalFilters.keys ↔
    FilterParameters.Refers config params key
  order : ∃ elements, (params.values config.orderParam).mapM OrderText.parse = .ok elements ∧
    spec.order.Lists elements.flatten
  segments : ∀ segment ∈ spec.order.segments,
    spec.additionalFilters.find? segment.key = some segment.filter
  projection : ∃ elements,
    (params.values config.propertiesParam).mapM ProjectionText.parse = .ok elements ∧
      spec.projection.Lists spec.additionalFilters elements.flatten
  scopes : ∀ path scope, spec.projection.scopes.find? path = some scope →
    spec.additionalFilters.find? scope.key = some scope.filter
  main : spec.filter.basePath = Option.none
  filters : ∀ key f, (key, f) ∈ spec.filters config →
    f.Scoped s spec.resourceType ∧ ∀ c ∈ f.conditions, c.Valid s config.maxOperands f.scope

section CompiledFrom

variable {keys : List String} {groups : NameMap FilterParameters}
  (h : CompiledFrom s config params keys groups spec)

include h

theorem CompiledFrom.refers_of_mem {key : String} (hkey : key ∈ spec.additionalFilters.keys) :
    FilterParameters.Refers config params key := by
  have hcollected := FilterParameters.collected_of_collect h.collects
  obtain ⟨⟨other, f⟩, hf, hsame⟩ := List.mem_map.1 hkey
  obtain rfl : other = key := hsame
  have hne : other ≠ config.filterKey := fun heq => h.sorted.2 (heq ▸ hkey)
  obtain ⟨hown | hsome, -⟩ := h.filters_ok other f (List.mem_cons_of_mem _ hf)
  · exact absurd hown hne
  · obtain ⟨name, values, p, hmem, hparse, hroot⟩ := (hcollected.keys other).1 hsome
    obtain ⟨root, hname, -, hreferred⟩ :=
      FilterParameters.isAddressed_iff.1 (List.mem_filter.1 hmem).2
    rw [FilterParameter.root?_of_parse hparse, hroot] at hname
    cases hname
    rcases hreferred with heq | hreferred
    · exact absurd heq hne
    · exact (FilterParameters.mem_referredKeys h.refers other).1 hreferred

theorem CompiledFrom.mem_of_refers {key : String}
    (hkey : FilterParameters.Refers config params key) : key ∈ spec.additionalFilters.keys := by
  rw [← NameMap.contains_iff]
  rcases hkey with ⟨text, htext, elements, hparse, hkey⟩ | ⟨text, htext, elements, hparse, hkey⟩
  · obtain ⟨lists, hlists, hsame⟩ := SortOrder.lists_of_values h.order
    have hmem : key ∈ spec.order.segments.map Segment.key := by
      have hlist := (mem_of_mapM_eq_ok hlists elements).2 ⟨text, htext, hparse⟩
      obtain ⟨element, helement, hkey⟩ := List.mem_filterMap.1 hkey
      rw [hsame]
      exact List.mem_filterMap.2 ⟨element, List.mem_flatten.2 ⟨_, hlist, helement⟩, hkey⟩
    obtain ⟨segment, hsegment, rfl⟩ := List.mem_map.1 hmem
    rw [NameMap.contains, (SortOrder.compiled_of_values h.order).1.found segment hsegment]
    rfl
  · obtain ⟨lists, hlists, hsame⟩ := Projection.lists_of_values h.projection
    have hlist := (mem_of_mapM_eq_ok hlists elements).2 ⟨text, htext, hparse⟩
    obtain ⟨element, helement, hkey⟩ := List.mem_filterMap.1 hkey
    exact hsame.found key
      (List.mem_filterMap.2 ⟨element, List.mem_flatten.2 ⟨_, hlist, helement⟩, hkey⟩)

theorem CompiledFrom.basePath_eq_none (hconfig : config.validate = .ok ()) :
    spec.filter.basePath = Option.none := by
  have hbase := (h.builtFrom hconfig (f := spec.filter) List.mem_cons_self).basePath
  rwa [h.own, Option.map_eq_none_iff] at hbase

theorem CompiledFrom.valid_filter {d : SchemaDocument} (hbuild : d.build = .ok s)
    (hconfig : config.validate = .ok ()) {key : String} {f : Filter}
    (hf : (key, f) ∈ spec.filters config) :
    f.Scoped s spec.resourceType ∧ ∀ c ∈ f.conditions, c.Valid s config.maxOperands f.scope := by
  have hfrom := h.builtFrom hconfig hf
  obtain ⟨f₀, -, -, hstart, hsubject, -⟩ := Filter.build_ok hfrom.within hfrom.built
  constructor
  · have hscoped := Filter.scoped_of_start hstart
    rw [Filter.subject, Filter.subject, Prod.mk.injEq] at hsubject
    unfold Filter.Scoped at hscoped ⊢
    rw [hsubject.1, hsubject.2]
    exact hscoped
  · intro c hc
    obtain ⟨e, -, clause, hclause, hmem⟩ := Filter.exists_clause_of_build hfrom.within hfrom.built hc
    obtain ⟨text, path, reading, test, operands, -, -, -, hlimit, hmade⟩ :=
      FilterEntry.exists_made_of_clause? hclause hmem
    exact Condition.valid_of_makeCondition hbuild hlimit hmade

end CompiledFrom

/-- Whatever a request is compiled to is valid. -/
theorem compile_valid {d : SchemaDocument} {resourceType : String} (hbuild : d.build = .ok s)
    (hconfig : config.validate = .ok ())
    (h : compile s config resourceType params = .ok spec) : spec.Valid s config params := by
  obtain ⟨start, keys, groups, -, -, hparts⟩ := compile_eq_ok_iff.1 h
  constructor
  case additional =>
    exact ⟨hparts.sorted.1, fun key => ⟨hparts.refers_of_mem, hparts.mem_of_refers⟩⟩
  case order => exact SortOrder.lists_of_values hparts.order
  case segments => exact (SortOrder.compiled_of_values hparts.order).1.found
  case projection => exact Projection.lists_of_values hparts.projection
  case scopes =>
    exact fun path scope hscope =>
      ((Projection.compiled_of_values hparts.projection).scopes path scope hscope).2.1
  case main => exact hparts.basePath_eq_none hconfig
  case filters => exact fun key f hf => hparts.valid_filter hbuild hconfig hf

/-- Users with an order, the late ones first. -/
def lateRequest : Parameters :=
  Parameters.ofPairs [("f$order.id:ge", "10"), ("late$id:gt", "5"), ("order", "$late,id:desc"),
    ("fields", "id")]

theorem lateRequest_valid :
    orderDocument.build = .ok orderSchema ∧ Configuration.validate {} = .ok () ∧
      ∃ spec, compile orderSchema {} "User" lateRequest = .ok spec ∧
        spec.additionalFilters.keys = ["late"] ∧ spec.Valid orderSchema {} lateRequest := by
  have hbuild : orderDocument.build = .ok orderSchema := rfl
  have hconfig : Configuration.validate {} = .ok () := by decide +kernel
  have hcheck : (compile orderSchema {} "User" lateRequest).toOption.any (fun spec =>
      spec.additionalFilters.keys = ["late"]) = true := by
    decide +kernel
  obtain ⟨spec, hspec, hkeys⟩ := (Option.any_eq_true _ _).1 hcheck
  have hcompile := toOption_eq_some_iff.1 hspec
  exact ⟨hbuild, hconfig, spec, hcompile, of_decide_eq_true hkeys,
    compile_valid hbuild hconfig hcompile⟩

end Specification

end ResourceQuery
