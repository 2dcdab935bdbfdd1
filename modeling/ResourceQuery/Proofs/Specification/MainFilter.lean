import ResourceQuery.Proofs.Query.Grammar
import ResourceQuery.Proofs.Specification.Locking
/-!
# The main filter by itself

The main filter can be compiled as a part of a specification, or by itself. Other filters do not
change what is collected for it (`FilterParameters.collect_main`), so a compiled specification has
the filter that is compiled by itself. Of a request that only has a main filter, the two refuse the
same, up to one thing: a specification does not let the main filter have a base path
(`Specification.compile_iff_filter`).
-/

namespace ResourceQuery

/-- The name of a base path is the key of its filter and the mark. -/
theorem FilterParameter.eq_of_parse_basePath {name key : String}
    (h : parse name = .ok (basePath key)) : name = key ++ "@" := by
  obtain ⟨-, _, rfl, rfl, -⟩ := grammar_exact.spelled name _ h
  simp [pieces]

namespace FilterParameters

variable {config : Configuration} {params : Parameters} {keys : List String}
  {groups : NameMap FilterParameters}

/-- Which other filters are looked at does not matter for the parameters of the main filter. -/
theorem isAddressed_main {name : String}
    (hroot : FilterParameter.root? name = some config.filterKey) (keys others : List String) :
    isAddressed config keys name = isAddressed config others name := by
  simp [isAddressed, hroot]

theorem entriesUnder_main (keys others : List String) (entries : List (String × List String)) :
    (entries.filter fun e => isAddressed config keys e.1).filterMap (entryUnder? config.filterKey) =
      (entries.filter fun e => isAddressed config others e.1).filterMap
        (entryUnder? config.filterKey) := by
  rw [List.filterMap_filter, List.filterMap_filter]
  refine List.filterMap_congr fun ⟨name, values⟩ _ => ?_
  cases hentry : entryUnder? config.filterKey (name, values) with
  | none => simp
  | some e =>
      obtain ⟨p, hp, hkey⟩ := Option.bind_eq_some_iff.1 hentry
      split at hkey
      · rename_i hroot
        have hroot := (FilterParameter.root?_of_parse (toOption_eq_some_iff.1 hp)).trans
          (congrArg some hroot)
        rw [isAddressed_main hroot keys others]
      · cases hkey

/-- What is collected for the main filter is the same without the other filters. -/
theorem collect_main (h : collect config keys params = .ok groups)
    (hbase : (of groups config.filterKey).basePath = none) :
    ∃ own, collect config [] params = .ok own ∧
      of own config.filterKey = of groups config.filterKey := by
  have hmore : ∀ name, isAddressed config [] name = true → isAddressed config keys name = true := by
    intro name hname
    obtain ⟨root, hroot, hother, hkey⟩ := isAddressed_iff.1 hname
    exact isAddressed_iff.2 ⟨root, hroot, hother, .inl (by simpa using hkey)⟩
  obtain ⟨own, hown⟩ : ∃ own, collect config [] params = .ok own :=
    collect_isOk fun name values hentry hname => single_of_collect h hentry (hmore name hname)
  have hcollected := collected_of_collect h
  have hcollectedOwn := collected_of_collect hown
  have hentries : (of own config.filterKey).entries = (of groups config.filterKey).entries := by
    rw [hcollected.listed, hcollectedOwn.listed]
    exact entriesUnder_main [] keys params.entries
  have hunbased : (of own config.filterKey).basePath = none := by
    cases hpath : (of own config.filterKey).basePath with
    | none => rfl
    | some path =>
        obtain ⟨name, hadded, hparse⟩ := hcollectedOwn.basePath _ path hpath
        obtain ⟨hentry, hname⟩ := List.mem_filter.1 hadded
        have hsome := hcollected.based _ name [path]
          (List.mem_filter.2 ⟨hentry, hmore name hname⟩) hparse
        rw [hbase] at hsome
        cases hsome
  refine ⟨own, hown, ?_⟩
  cases hsame : of own config.filterKey with
  | mk base entries =>
      cases hother : of groups config.filterKey with
      | mk base' entries' =>
          rw [hsame, hother] at hentries
          rw [hsame] at hunbased
          rw [hother] at hbase
          cases hentries
          cases hunbased
          cases hbase
          rfl

/-- A request about the main filter alone leaves no other filter behind. -/
theorem keys_of_collect (honly : ∀ name ∈ params.names,
      FilterParameter.root? name = some config.filterKey)
    (h : collect config keys params = .ok groups) :
    groups.filter (fun entry => entry.1 ≠ config.filterKey) = [] := by
  have hcollected := collected_of_collect h
  rw [List.filter_eq_nil_iff]
  rintro ⟨key, p⟩ hmem
  obtain ⟨name, values, q, hadded, hparse, rfl⟩ := (hcollected.keys key).1
    (by rw [NameMap.find?_of_mem hcollected.sorted hmem]; rfl)
  have hroot := honly name (List.mem_map_of_mem (List.mem_of_mem_filter hadded))
  rw [FilterParameter.root?_of_parse hparse] at hroot
  simpa using hroot

/-- A base path of the main filter that is given is collected. -/
theorem basePath_of_collect (hconfig : config.validate = .ok ())
    (h : collect config keys params = .ok groups)
    (hgiven : config.filterKey ++ "@" ∈ params.names) :
    (of groups config.filterKey).basePath.isSome = true := by
  have hparse := FilterParameter.parse_basePath (Configuration.validate_ok hconfig).1
  have hname : FilterParameter.opening config.filterKey [] '@' = config.filterKey ++ "@" := by
    simp [FilterParameter.opening, Text.join]
  rw [hname] at hparse
  obtain ⟨⟨name, values⟩, hentry, rfl⟩ := List.mem_map.1 hgiven
  have haddressed : isAddressed config keys (config.filterKey ++ "@") = true :=
    (isAddressed_iff_of_parse hconfig hparse).2 (.inl rfl)
  exact (collected_of_collect h).based _ _ values (List.mem_filter.2 ⟨hentry, haddressed⟩) hparse

end FilterParameters

namespace Specification

variable {s : Schema} {config : Configuration} {resourceType : String} {params : Parameters}

/-- The main filter of a specification is the filter compiled by itself. -/
theorem filter_of_compile {spec : Specification}
    (h : compile s config resourceType params = .ok spec) :
    Filter.compile s config resourceType params = .ok spec.filter := by
  obtain ⟨start, keys, groups, hstart, htype, hparts⟩ := compile_eq_ok_iff.1 h
  obtain ⟨own, hown, hsame⟩ := FilterParameters.collect_main hparts.collects hparts.own
  obtain ⟨c, hresource, hname, hsubject⟩ := resource_of_all hstart
  rw [Filter.compile, hown, ok_bind, hresource, ok_bind, hname, ← hsubject, htype, hsame]
  exact hparts.filter

theorem values_eq_nil {name : String} (h : name ∉ params.names) : params.values name = [] := by
  rw [Parameters.values, NameMap.find?_eq_none h]
  rfl

/-- Without lists and other filters nothing is compiled but the main filter. -/
theorem exists_compile_of_filter {f : Filter} {groups : NameMap FilterParameters}
    (hlists : ∀ name ∈ config.parameterNames, name ∉ params.names)
    (hgroups : FilterParameters.collect config [] params = .ok groups)
    (hothers : groups.filter (fun entry => entry.1 ≠ config.filterKey) = [])
    (hbase : (FilterParameters.of groups config.filterKey).basePath = Option.none)
    (hcompile : Filter.compile s config resourceType params = .ok f) :
    ∃ spec, compile s config resourceType params = .ok spec := by
  have hvalues : ∀ name ∈ config.parameterNames, params.values name = [] :=
    fun name hname => values_eq_nil (hlists name hname)
  simp only [Configuration.parameterNames, List.forall_mem_cons] at hvalues
  obtain ⟨horder, hproperties, hreferences, hrange, -⟩ := hvalues
  rw [Filter.compile, hgroups, ok_bind] at hcompile
  obtain ⟨c, hresource, hfilter⟩ := bind_eq_ok_iff.1 hcompile
  have hstart : all s resourceType = .ok ⟨c.name, ⟨c.name, Option.none, c.name,
      [⟨.conjunction, Option.none, [], []⟩], []⟩, [], ⟨c.name, [], []⟩, ⟨c.name, false, [], [], []⟩,
      ⟨c.name, []⟩, Option.none⟩ := by
    simp only [all, Filter.all, SortOrder.none, Projection.none, References.none, hresource]
    rfl
  refine ⟨⟨c.name, f, [], ⟨c.name, [], []⟩, ⟨c.name, false, [], [], []⟩, ⟨c.name, []⟩,
    Option.none⟩, compile_eq_ok_iff.2 ⟨_, [], groups, hstart, rfl, ?_⟩⟩
  constructor
  case refers =>
    rw [FilterParameters.referredKeys, horder, hproperties]
    rfl
  case collects => exact hgroups
  case own => exact hbase
  case filter => exact hfilter
  case additional =>
    rw [hothers]
    rfl
  case order =>
    rw [horder]
    rfl
  case projection =>
    rw [hproperties]
    rfl
  case references =>
    rw [hreferences]
    rfl
  case range =>
    rw [Parameters.firstNonEmpty?, hrange]
    rfl

/-- The main filter of a compiled specification is what is compiled by itself. Conversely a request
with parameters of the main filter alone is refused as a specification if its filter is refused, or
if it gives the main filter a base path, which is not looked for when the filter is compiled by
itself. -/
theorem compile_iff_filter {config : Configuration} (hconfig : config.validate = .ok ())
    (s : Schema) (resourceType : String) (params : Parameters) :
    (∀ spec, compile s config resourceType params = .ok spec →
      Filter.compile s config resourceType params = .ok spec.filter) ∧
    ((∀ name ∈ params.names, FilterParameter.root? name = some config.filterKey) →
      ((∃ spec, compile s config resourceType params = .ok spec) ↔
        (∃ f, Filter.compile s config resourceType params = .ok f) ∧
          config.filterKey ++ "@" ∉ params.names)) := by
  refine ⟨fun spec => filter_of_compile, fun honly => ⟨?_, ?_⟩⟩
  · rintro ⟨spec, hcompile⟩
    refine ⟨⟨_, filter_of_compile hcompile⟩, fun hbased => ?_⟩
    obtain ⟨start, keys, groups, -, -, hparts⟩ := compile_eq_ok_iff.1 hcompile
    have hsome := FilterParameters.basePath_of_collect hconfig hparts.collects hbased
    rw [hparts.own] at hsome
    cases hsome
  · rintro ⟨⟨f, hcompile⟩, hunbased⟩
    obtain ⟨groups, hgroups, -⟩ := bind_eq_ok_iff.1 hcompile
    have hlists : ∀ name ∈ config.parameterNames, name ∉ params.names := by
      intro name hname hgiven
      have hroot := honly name hgiven
      rw [FilterParameters.root?_of_mem_parameterNames hconfig hname] at hroot
      cases hroot
    refine exists_compile_of_filter hlists hgroups (FilterParameters.keys_of_collect honly hgroups)
      ?_ hcompile
    cases hbase : (FilterParameters.of groups config.filterKey).basePath with
    | none => rfl
    | some path =>
        have hcollected := FilterParameters.collected_of_collect hgroups
        obtain ⟨name, hadded, hparse⟩ := hcollected.basePath _ path hbase
        have hgiven : name ∈ params.names := List.mem_map_of_mem (List.mem_of_mem_filter hadded)
        rw [FilterParameter.eq_of_parse_basePath hparse] at hgiven
        exact absurd hgiven hunbased

/-- A user asked for by number, in a specification and by the filter alone. -/
theorem compile_iff_filter_user : Configuration.validate {} = .ok () ∧
    (∀ name ∈ (Parameters.ofPairs [("f$id", "7")]).names,
      FilterParameter.root? name = some "f") ∧
    ∃ spec, compile orderSchema {} "User" (Parameters.ofPairs [("f$id", "7")]) = .ok spec ∧
      Filter.compile orderSchema {} "User" (Parameters.ofPairs [("f$id", "7")]) =
        .ok spec.filter := by
  have hconfig : Configuration.validate {} = .ok () := by decide +kernel
  have honly : ∀ name ∈ (Parameters.ofPairs [("f$id", "7")]).names,
      FilterParameter.root? name = some "f" := by decide +kernel
  obtain ⟨hsame, hboth⟩ := compile_iff_filter hconfig orderSchema "User"
    (Parameters.ofPairs [("f$id", "7")])
  have hfilter : ∃ f, Filter.compile orderSchema {} "User" (Parameters.ofPairs [("f$id", "7")]) =
      .ok f := isSome_toOption_iff.1 (by decide +kernel)
  obtain ⟨spec, hspec⟩ := (hboth honly).2 ⟨hfilter, by decide +kernel⟩
  exact ⟨hconfig, honly, spec, hspec, hsame spec hspec⟩

/-- A base path of the main filter is refused in a specification and not in the filter by itself. -/
theorem based_filter_compiles : orderDocument.build = .ok orderSchema ∧
    Configuration.validate {} = .ok () ∧
    (∀ name ∈ (Parameters.ofPairs [("f@", "order")]).names,
      FilterParameter.root? name = some "f") ∧
    (∃ f, Filter.compile orderSchema {} "User" (Parameters.ofPairs [("f@", "order")]) = .ok f) ∧
    ∀ spec, compile orderSchema {} "User" (Parameters.ofPairs [("f@", "order")]) ≠ .ok spec := by
  have hconfig : Configuration.validate {} = .ok () := by decide +kernel
  refine ⟨rfl, hconfig, by decide +kernel, isSome_toOption_iff.1 (by decide +kernel), ?_⟩
  intro spec hcompile
  have hrefused : (compile orderSchema {} "User"
      (Parameters.ofPairs [("f@", "order")])).toOption.isSome = false := by decide +kernel
  rw [hcompile] at hrefused
  cases hrefused

end Specification

end ResourceQuery
