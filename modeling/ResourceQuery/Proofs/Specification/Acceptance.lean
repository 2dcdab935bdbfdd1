import ResourceQuery.Proofs.Specification.Validity
/-!
# What is read of a request

A request is compiled only if all of it can be read: every value of its lists and the name of every
parameter of a filter that counts (`Specification.reads_of_compile`). Of the range this holds for
the first value that is not empty; what is given behind it changes nothing
(`Specification.compile_add_range`).
-/

namespace ResourceQuery

namespace FilterParameters

/-- A collected parameter can be read, and a base path has one value. -/
theorem single_of_collect {config : Configuration} {keys : List String} {params : Parameters}
    {groups : NameMap FilterParameters} (h : collect config keys params = .ok groups)
    {name : String} {values : List String} (hentry : (name, values) ∈ params.entries)
    (haddressed : isAddressed config keys name = true) :
    ∃ p, FilterParameter.parse name = .ok p ∧
      ∀ key, p = .basePath key → ∃ path, values = [path] := by
  -- each step reads the name of the parameter that it sorts
  have hstep : ∀ (before : List (String × List String)) entry
      (groups groups' : NameMap FilterParameters),
      (∀ e ∈ before, ∃ p, FilterParameter.parse e.1 = .ok p ∧
          ∀ key, p = .basePath key → ∃ path, e.2 = [path]) →
        addParameter groups entry.1 entry.2 = .ok groups' →
          ∀ e ∈ before ++ [entry], ∃ p, FilterParameter.parse e.1 = .ok p ∧
            ∀ key, p = .basePath key → ∃ path, e.2 = [path] := by
    intro before entry groups groups' hbefore hadd
    rw [List.forall_mem_append, List.forall_mem_singleton]
    refine ⟨hbefore, ?_⟩
    obtain ⟨p, hadds⟩ := adds_of_addParameter hadd
    exact ⟨p, hadds.parsed, hadds.single⟩
  unfold collect at h
  have hread := foldlM_accumulates _ hstep (List.forall_mem_nil _) h
  rw [List.nil_append] at hread
  exact hread (name, values) (List.mem_filter.2 ⟨hentry, haddressed⟩)

theorem parse_of_collect {config : Configuration} {keys : List String} {params : Parameters}
    {groups : NameMap FilterParameters} (h : collect config keys params = .ok groups)
    {name : String} (hname : name ∈ params.names)
    (haddressed : isAddressed config keys name = true) :
    ∃ p, FilterParameter.parse name = .ok p := by
  obtain ⟨⟨other, values⟩, hentry, hsame⟩ := List.mem_map.1 hname
  obtain rfl : other = name := hsame
  obtain ⟨p, hparse, -⟩ := single_of_collect h hentry haddressed
  exact ⟨p, hparse⟩

end FilterParameters

namespace Specification

variable {s : Schema} {config : Configuration} {params : Parameters} {spec : Specification}

/-- What was read of a request. -/
structure Reads (config : Configuration) (params : Parameters) (spec : Specification) : Prop where
  order : ∀ text ∈ params.values config.orderParam,
    ∃ elements, OrderText.parse text = .ok elements
  projection : ∀ text ∈ params.values config.propertiesParam,
    ∃ elements, ProjectionText.parse text = .ok elements
  references : ∀ text ∈ params.values config.referencesParam,
    ∃ paths, PathText.parseList text = .ok paths
  /-- The names of the parameters of the main filter, and of those that are referred to. -/
  filters : ∀ name ∈ params.names, ∀ root, FilterParameter.root? name = some root →
    root = config.filterKey ∨ FilterParameters.Refers config params root →
      ∃ p, FilterParameter.parse name = .ok p ∧ p.key = root
  /-- The first value of the range that is not empty. -/
  range : ∀ empty text others, params.values config.rangeParam = empty ++ text :: others →
    (∀ value ∈ empty, value = "") → text ≠ "" →
      ∃ range, Range.parse text = .ok range ∧ spec.range = some range
  unlimited : (∀ value ∈ params.values config.rangeParam, value = "") → spec.range = none

theorem CompiledFrom.reads {keys : List String} {groups : NameMap FilterParameters}
    (h : CompiledFrom s config params keys groups spec) (hconfig : config.validate = .ok ()) :
    spec.Reads config params where
  order := by
    obtain ⟨lists, hlists, -⟩ := SortOrder.lists_of_values h.order
    intro text htext
    obtain ⟨elements, -, helements⟩ := exists_of_mapM_eq_ok hlists htext
    exact ⟨elements, helements⟩
  projection := by
    obtain ⟨lists, hlists, -⟩ := Projection.lists_of_values h.projection
    intro text htext
    obtain ⟨elements, -, helements⟩ := exists_of_mapM_eq_ok hlists htext
    exact ⟨elements, helements⟩
  references := by
    have hread : ∃ lists,
        (params.values config.referencesParam).mapM PathText.parseList = .ok lists ∧ True :=
      accumulates_values (fun _ (_ : References) => True) (fun _ _ _ _ _ _ => trivial) trivial
        h.references
    obtain ⟨lists, hlists, -⟩ := hread
    intro text htext
    obtain ⟨paths, -, hpaths⟩ := exists_of_mapM_eq_ok hlists htext
    exact ⟨paths, hpaths⟩
  filters := by
    intro name hname root hroot hcounts
    have haddressed : FilterParameters.isAddressed config keys name = true := by
      refine FilterParameters.isAddressed_iff.2 ⟨root, hroot, ?_, ?_⟩
      · intro hother
        rw [FilterParameters.root?_of_mem_parameterNames hconfig hother] at hroot
        cases hroot
      · exact hcounts.imp id (FilterParameters.mem_referredKeys h.refers root).2
    obtain ⟨p, hp⟩ := FilterParameters.parse_of_collect h.collects hname haddressed
    have hkey := FilterParameter.root?_of_parse hp
    rw [hroot, Option.some.injEq] at hkey
    exact ⟨p, hp, hkey.symm⟩
  range := by
    intro empty text others hvalues hempty htext
    have hfirst : params.firstNonEmpty? config.rangeParam = some text := by
      rw [Parameters.firstNonEmpty?, hvalues, List.find?_append,
        List.find?_eq_none.2 fun value hvalue => by simp [hempty value hvalue]]
      simp [htext]
    have hrange := h.range
    rw [hfirst] at hrange
    obtain ⟨range, hparse, hsame⟩ := map_eq_ok_iff.1 hrange
    exact ⟨range, hparse, hsame.symm⟩
  unlimited := by
    intro hempty
    have hnone : params.firstNonEmpty? config.rangeParam = none :=
      List.find?_eq_none.2 fun value hvalue => by simp [hempty value hvalue]
    have hrange := h.range
    rw [hnone] at hrange
    exact (Except.ok.inj hrange).symm

/-- Nothing that counts is left unread, and a range behind the first value that is not empty does
not count. -/
theorem reads_of_compile {resourceType : String} (hconfig : config.validate = .ok ())
    (h : compile s config resourceType params = .ok spec) : spec.Reads config params := by
  obtain ⟨start, keys, groups, -, -, hparts⟩ := compile_eq_ok_iff.1 h
  exact hparts.reads hconfig

/-- Late users first, in a window. -/
def windowRequest : Parameters := lateRequest.add "range" "20,10"

theorem windowRequest_reads : Configuration.validate {} = .ok () ∧
    ∃ spec, compile orderSchema {} "User" windowRequest = .ok spec ∧
      spec.Reads {} windowRequest := by
  have hconfig : Configuration.validate {} = .ok () := by decide +kernel
  have hcompiles : (compile orderSchema {} "User" windowRequest).toOption.isSome = true := by
    decide +kernel
  obtain ⟨spec, hcompile⟩ := isSome_toOption_iff.1 hcompiles
  exact ⟨hconfig, spec, hcompile, reads_of_compile hconfig hcompile⟩

/-- A second range is not read: it need not be one. -/
theorem second_range_unread : orderDocument.build = .ok orderSchema ∧
    Configuration.validate {} = .ok () ∧
      (∃ spec, compile orderSchema {} "User"
        (Parameters.ofPairs [("range", "0,10"), ("range", "junk")]) = .ok spec) ∧
      "junk" ∈ (Parameters.ofPairs [("range", "0,10"), ("range", "junk")]).values "range" ∧
      ∀ range, Range.parse "junk" ≠ .ok range := by
  have hcompiles : (compile orderSchema {} "User"
      (Parameters.ofPairs [("range", "0,10"), ("range", "junk")])).toOption.isSome = true := by
    decide +kernel
  have hjunk : (Range.parse "junk").toOption = none := by decide +kernel
  refine ⟨rfl, by decide +kernel, isSome_toOption_iff.1 hcompiles, by decide +kernel, ?_⟩
  intro range hrange
  rw [hrange] at hjunk
  cases hjunk

/-- Once a range is given, further values of it change nothing. -/
theorem compile_add_range {resourceType : String} (hconfig : config.validate = .ok ())
    (hgiven : (params.firstNonEmpty? config.rangeParam).isSome) (value : String) :
    compile s config resourceType (params.add config.rangeParam value) =
      compile s config resourceType params := by
  have hother : ∀ name ∈ [config.orderParam, config.propertiesParam, config.referencesParam],
      (params.add config.rangeParam value).values name = params.values name := by
    intro name hname
    rw [Parameters.values_add, if_neg (Configuration.ne_rangeParam hconfig hname).symm]
  have hfirst : (params.add config.rangeParam value).firstNonEmpty? config.rangeParam =
      params.firstNonEmpty? config.rangeParam := by
    obtain ⟨text, htext⟩ := Option.isSome_iff_exists.1 hgiven
    rw [Parameters.firstNonEmpty?] at htext
    rw [Parameters.firstNonEmpty?, Parameters.values_add, if_pos rfl, List.find?_append, htext,
      Parameters.firstNonEmpty?, htext]
    rfl
  have hcollect : ∀ keys,
      FilterParameters.collect config keys (params.add config.rangeParam value) =
        FilterParameters.collect config keys params := by
    intro keys
    have hunaddressed : FilterParameters.isAddressed config keys config.rangeParam = false :=
      FilterParameters.isAddressed_of_mem_parameterNames hconfig
        (by simp [Configuration.parameterNames])
    rw [FilterParameters.collect, Parameters.add, NameMap.filter_insert_of_not hunaddressed]
    rfl
  unfold compile FilterParameters.referredKeys
  rw [hfirst, hother _ (by simp), hother _ (by simp), hother _ (by simp)]
  simp only [hcollect]

end Specification

end ResourceQuery
