import ResourceQuery.Compile.Specification
import ResourceQuery.Proofs.Compile.Filter
import ResourceQuery.Proofs.Compile.Projection
/-!
# What a specification is compiled of

A request is compiled exactly if its parts are: the addressed parameters are sorted, every filter is
built of those under its key, and the lists are compiled with the filters
(`Specification.compile_eq_ok_iff`). The filters of a compiled specification stand under different
identifiers (`Specification.CompiledFrom.builtFrom`).
-/

namespace ResourceQuery

namespace Configuration

/-- The names of parameters are different, and hold no marker of a filter parameter. -/
theorem checkNames_ok {names : List String} {u : Unit} (h : checkNames names = .ok u) :
    names.Nodup ∧ ∀ name ∈ names, '$' ∉ name.toList ∧ '@' ∉ name.toList := by
  induction names with
  | nil => exact ⟨List.nodup_nil, List.forall_mem_nil _⟩
  | cons name rest ih =>
      simp only [checkNames, throw_bind, ite_error_eq_ok_iff, Bool.or_eq_true, not_or,
        List.contains_iff_mem] at h
      obtain ⟨⟨⟨-, hdollar⟩, hat⟩, honce, hrest⟩ := h
      obtain ⟨hnodup, hplain⟩ := ih hrest
      exact ⟨List.nodup_cons.2 ⟨honce, hnodup⟩, List.forall_mem_cons.2 ⟨⟨hdollar, hat⟩, hplain⟩⟩

theorem validate_ok {c : Configuration} {u : Unit} (h : c.validate = .ok u) :
    Text.isIdentifier c.filterKey.toList = true ∧ c.parameterNames.Nodup ∧
      ∀ name ∈ c.parameterNames, '$' ∉ name.toList ∧ '@' ∉ name.toList := by
  simp only [validate, throw_bind, ite_error_eq_ok_iff, bind_eq_ok_iff] at h
  obtain ⟨hkey, _, hnames, -⟩ := h
  exact ⟨by simpa using hkey, checkNames_ok hnames⟩

theorem ne_rangeParam {c : Configuration} {u : Unit} (h : c.validate = .ok u) {name : String}
    (hname : name ∈ [c.orderParam, c.propertiesParam, c.referencesParam]) : name ≠ c.rangeParam := by
  have hnodup : ([c.orderParam, c.propertiesParam, c.referencesParam] ++ [c.rangeParam]).Nodup :=
    (validate_ok h).2.1
  rintro rfl
  exact List.disjoint_of_nodup_append hnodup hname (List.mem_singleton_self _)

end Configuration

namespace FilterParameters

section

variable {groups : NameMap FilterParameters} {added : List (String × List String)}
  (h : Collected groups added) (key : String)

include h

/-- The entries of a filter are about groups inside its outermost one. -/
theorem Collected.within :
    ∀ e ∈ (of groups key).entries, e.group.segments.head? = some key := by
  intro e he
  obtain ⟨p, -, hparse, rfl, hentry⟩ := (h.entries key e).1 he
  have hsound := FilterParameter.sound_of_parse hparse
  obtain ⟨-, -, ⟨rfl, -⟩ | ⟨text, rfl, -⟩⟩ := entryFor?_eq_some_iff.1 hentry
  · exact hsound.group e.group (.inl rfl)
  · exact hsound.group e.group (.inr ⟨text, rfl⟩)

theorem Collected.readable : ∀ e ∈ (of groups key).entries, e.Readable := by
  intro e he text htext
  obtain ⟨p, -, hparse, -, hentry⟩ := (h.entries key e).1 he
  obtain ⟨-, -, ⟨-, hcontent⟩ | ⟨own, rfl, hcontent⟩⟩ := entryFor?_eq_some_iff.1 hentry
  · rw [hcontent] at htext
    cases htext
  · rw [hcontent] at htext
    cases htext
    exact (FilterParameter.sound_of_parse hparse).paths e.group text rfl

end

variable {config : Configuration} {keys : List String} {name : String}

theorem isAddressed_iff :
    isAddressed config keys name = true ↔ ∃ root, FilterParameter.root? name = some root ∧
      name ∉ config.parameterNames ∧ (root = config.filterKey ∨ root ∈ keys) := by
  unfold isAddressed
  cases FilterParameter.root? name with
  | none => simp
  | some root => simp

/-- The names of other parameters are addressed to no filter. -/
theorem root?_of_mem_parameterNames (hconfig : config.validate = .ok ())
    (hname : name ∈ config.parameterNames) : FilterParameter.root? name = none := by
  obtain ⟨hdollar, hat⟩ := (Configuration.validate_ok hconfig).2.2 name hname
  cases hroot : FilterParameter.root? name with
  | none => rfl
  | some root => exact ((FilterParameter.marker_mem_of_root? hroot).elim hdollar hat).elim

theorem isAddressed_of_mem_parameterNames (hconfig : config.validate = .ok ())
    (hname : name ∈ config.parameterNames) : isAddressed config keys name = false := by
  rw [isAddressed, root?_of_mem_parameterNames hconfig hname]

/-- The name of a parameter that can be read is addressed to the filter with its key. -/
theorem isAddressed_iff_of_parse (hconfig : config.validate = .ok ()) {p : FilterParameter}
    (hparse : FilterParameter.parse name = .ok p) :
    isAddressed config keys name = true ↔ p.key = config.filterKey ∨ p.key ∈ keys := by
  have hroot := FilterParameter.root?_of_parse hparse
  have hother : name ∉ config.parameterNames := by
    intro hmem
    rw [root?_of_mem_parameterNames hconfig hmem] at hroot
    cases hroot
  simp [isAddressed, hroot, hother]

end FilterParameters

namespace Specification

/-- The filters of a specification by their keys, the main one first. -/
def filters (spec : Specification) (config : Configuration) : NameMap Filter :=
  (config.filterKey, spec.filter) :: spec.additionalFilters

variable {s : Schema} {config : Configuration} {resourceType : String}

/-- A specification that asks for all records has no lists. -/
theorem all_ok {start : Specification} (h : all s resourceType = .ok start) :
    start.order = ⟨start.resourceType, [], []⟩ ∧
      start.projection = ⟨start.resourceType, false, [], [], []⟩ ∧
      start.references = ⟨start.resourceType, []⟩ := by
  simp only [all, bind_eq_ok_iff] at h
  obtain ⟨c, hc, filter, -, order, horder, projection, hprojection, references, hreferences, h⟩ := h
  cases h
  rw [SortOrder.none, hc] at horder
  rw [Projection.none, hc] at hprojection
  rw [References.none, hc] at hreferences
  cases horder
  cases hprojection
  cases hreferences
  exact ⟨rfl, rfl, rfl⟩

/-- A specification is about a resource that the schema has. -/
theorem resource_of_all {start : Specification} (h : all s resourceType = .ok start) :
    ∃ c, s.resource resourceType = .ok c ∧ c.name = resourceType ∧
      start.resourceType = resourceType := by
  simp only [all, bind_eq_ok_iff] at h
  obtain ⟨c, hc, _, -, _, -, _, -, _, -, heq⟩ := h
  cases heq
  exact ⟨c, hc, Projection.resource_name hc, Projection.resource_name hc⟩

/-- What the parameters of a request were compiled to, part by part. -/
structure CompiledFrom (s : Schema) (config : Configuration) (params : Parameters)
    (keys : List String) (groups : NameMap FilterParameters) (spec : Specification) : Prop where
  refers : FilterParameters.referredKeys config params = .ok keys
  collects : FilterParameters.collect config keys params = .ok groups
  own : (FilterParameters.of groups config.filterKey).basePath = Option.none
  filter : Filter.build s config spec.resourceType (FilterParameters.of groups config.filterKey) =
    .ok spec.filter
  additional : (groups.filter fun entry => entry.1 ≠ config.filterKey).mapM (fun entry => do
      return (entry.1, ← Filter.build s config spec.resourceType entry.2)) =
    .ok spec.additionalFilters
  order : (params.values config.orderParam).foldlM
    (SortOrder.compile s spec.additionalFilters) ⟨spec.resourceType, [], []⟩ = .ok spec.order
  projection : (params.values config.propertiesParam).foldlM
    (Projection.compile s spec.additionalFilters) ⟨spec.resourceType, false, [], [], []⟩ =
      .ok spec.projection
  references : (params.values config.referencesParam).foldlM (References.compile s)
    ⟨spec.resourceType, []⟩ = .ok spec.references
  range : (params.firstNonEmpty? config.rangeParam).mapM Range.parse = .ok spec.range

theorem checkMain_eq_ok_iff {p : FilterParameters} :
    checkMain config p = .ok () ↔ p.basePath = Option.none := by
  unfold checkMain
  cases p.basePath <;> simp

section

variable {params : Parameters} {keys : List String} {groups : NameMap FilterParameters}
  {spec : Specification}

theorem compile_eq_ok_iff :
    compile s config resourceType params = .ok spec ↔ ∃ start keys groups,
      all s resourceType = .ok start ∧ start.resourceType = spec.resourceType ∧
        CompiledFrom s config params keys groups spec := by
  simp only [compile, bind_eq_ok_iff]
  constructor
  · rintro ⟨start, hstart, keys, hkeys, groups, hgroups, _, hmain, filter, hfilter, additional,
      hadditional, order, horder, projection, hprojection, references, hreferences, range, hrange,
      heq⟩
    cases heq
    obtain ⟨ho, hp, hr⟩ := all_ok hstart
    rw [ho] at horder
    rw [hp] at hprojection
    rw [hr] at hreferences
    exact ⟨start, keys, groups, hstart, rfl, hkeys, hgroups, checkMain_eq_ok_iff.1 hmain, hfilter,
      hadditional, horder, hprojection, hreferences, hrange⟩
  · rintro ⟨start, keys, groups, hstart, htype, h⟩
    obtain ⟨ho, hp, hr⟩ := all_ok hstart
    refine ⟨start, hstart, keys, h.refers, groups, h.collects, (), checkMain_eq_ok_iff.2 h.own,
      spec.filter, ?_, spec.additionalFilters, ?_, spec.order, ?_, spec.projection, ?_,
      spec.references, ?_, spec.range, h.range, ?_⟩
    · rw [htype]
      exact h.filter
    · rw [htype]
      exact h.additional
    · rw [ho, htype]
      exact h.order
    · rw [hp, htype]
      exact h.projection
    · rw [hr, htype]
      exact h.references
    · rw [htype]
      rfl

/-- The additional filters are those of the other keys. -/
theorem CompiledFrom.forall₂ (h : CompiledFrom s config params keys groups spec) :
    List.Forall₂ (fun entry built => built.1 = entry.1 ∧
        Filter.build s config spec.resourceType entry.2 = .ok built.2)
      (groups.filter fun entry => entry.1 ≠ config.filterKey) spec.additionalFilters := by
  refine (mapM_eq_ok_iff_forall₂.1 h.additional).imp ?_
  rintro ⟨key, p⟩ built hbuilt
  obtain ⟨f, hf, heq⟩ := bind_eq_ok_iff.1 hbuilt
  cases heq
  exact ⟨rfl, hf⟩

theorem CompiledFrom.filters_ok (h : CompiledFrom s config params keys groups spec) (key : String)
    (f : Filter) (hf : (key, f) ∈ spec.filters config) :
    (key = config.filterKey ∨ (groups.find? key).isSome) ∧
      Filter.build s config spec.resourceType (FilterParameters.of groups key) = .ok f := by
  have hsorted := (FilterParameters.collected_of_collect h.collects).sorted
  rcases List.mem_cons.1 hf with hf | hf
  · cases hf
    exact ⟨.inl rfl, h.filter⟩
  · obtain ⟨⟨other, p⟩, hp, heq, hbuild⟩ := exists_of_forall₂ h.forall₂ hf
    obtain rfl : key = other := heq
    have hfound := NameMap.find?_of_mem hsorted (List.mem_of_mem_filter hp)
    refine ⟨.inr (by rw [hfound]; rfl), ?_⟩
    rw [FilterParameters.of, hfound]
    exact hbuild

theorem keys_of_forall₂ {α β : Type} {m : NameMap α} {other : NameMap β}
    (h : List.Forall₂ (fun entry built => built.1 = entry.1) m other) : other.keys = m.keys := by
  rw [NameMap.keys, NameMap.keys, ← List.forall₂_eq_eq_eq, List.forall₂_map_left_iff,
    List.forall₂_map_right_iff]
  exact h.flip

/-- The additional filters stand in the order of their keys, and the main filter is none of them. -/
theorem CompiledFrom.sorted (h : CompiledFrom s config params keys groups spec) :
    spec.additionalFilters.Sorted ∧ config.filterKey ∉ spec.additionalFilters.keys := by
  have hsorted := (FilterParameters.collected_of_collect h.collects).sorted
  have hkeys : spec.additionalFilters.keys =
      NameMap.keys (groups.filter fun entry => entry.1 ≠ config.filterKey) :=
    keys_of_forall₂ (h.forall₂.imp fun _ _ hsame => hsame.1)
  constructor
  · rw [NameMap.Sorted, hkeys]
    exact hsorted.sublist (List.filter_sublist.map Prod.fst)
  · rw [hkeys]
    intro hmem
    obtain ⟨entry, hentry, heq⟩ := List.mem_map.1 hmem
    have hne := (List.mem_filter.1 hentry).2
    simp [heq] at hne

/-- The filters of a compiled specification stand under identifiers. -/
theorem CompiledFrom.builtFrom (h : CompiledFrom s config params keys groups spec)
    (hconfig : config.validate = .ok ()) {key : String} {f : Filter}
    (hf : (key, f) ∈ spec.filters config) :
    f.BuiltFrom s config spec.resourceType key (FilterParameters.of groups key) := by
  have hcollected := FilterParameters.collected_of_collect h.collects
  obtain ⟨hkey, hbuild⟩ := h.filters_ok key f hf
  refine ⟨?_, hcollected.within key, hcollected.readable key, hbuild⟩
  rcases hkey with rfl | hsome
  · exact (Configuration.validate_ok hconfig).1
  · obtain ⟨name, values, p, -, hparse, rfl⟩ := (hcollected.keys key).1 hsome
    exact (FilterParameter.sound_of_parse hparse).key

end

end Specification

end ResourceQuery
