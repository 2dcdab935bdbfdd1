import ResourceQuery.Proofs.Compile.Recovery
import ResourceQuery.Proofs.Filter.Walk
import ResourceQuery.Proofs.Specification.Encoding
/-!
# Specifications recovered from what they are written as

A recoverable specification is compiled again of its parameters, to one that is written as the same
parameters (`Specification.encode_recovers`).
-/

namespace ResourceQuery

namespace Filter

/-- The filter compares a property with one text, and does nothing else. -/
def comparesText (f : Filter) : Bool :=
  match f.sole? with
  | some ⟨.equality true, _, _, [.text text]⟩ => !text.isEmpty
  | _ => false

theorem recoverable_of_comparesText {config : Configuration} {f : Filter}
    (h : f.comparesText = true) (hdepth : 0 < config.maxGroupDepth)
    (hoperands : 0 < config.maxOperands) : f.tree.Recoverable config := by
  unfold comparesText at h
  split at h
  · rename_i path options text hsole
    rw [(of_sole? hsole).2]
    refine ⟨by simpa [FilterTree.depth, FilterTree.depthOf] using Nat.succ_le_of_lt hdepth, ?_⟩
    intro g hg
    obtain rfl : g = (.conjunction, [.condition ⟨.equality true, path, options, [.text text]⟩]) := by
      simpa [FilterTree.groups, FilterTree.groupsOf] using hg
    refine ⟨⟨0, 0, by omega, rfl⟩, ?_, ?_, ?_, ?_⟩
    · intro c hc
      obtain rfl := FilterTree.condition.inj (List.mem_singleton.1 hc)
      simpa [Condition.namesakes, FilterTree.condition?] using Nat.succ_le_of_lt hoperands
    · intro c hc hpresence
      obtain rfl := FilterTree.condition.inj (List.mem_singleton.1 hc)
      cases hpresence
    · intro c hc _ operand hoperand
      obtain rfl := FilterTree.condition.inj (List.mem_singleton.1 hc)
      obtain rfl := List.mem_singleton.1 hoperand
      rintro hempty
      obtain rfl : text = "" := Option.some.inj hempty
      cases h
    · intro c hc operand hoperand
      obtain rfl := FilterTree.condition.inj (List.mem_singleton.1 hc)
      obtain rfl := List.mem_singleton.1 hoperand
      exact trivial
  · cases h

theorem isWritten_of_comparesText {f : Filter} (h : f.comparesText = true) :
    f.isWritten = true := by
  unfold comparesText at h
  split at h
  · rename_i hsole
    rw [isWritten, (of_sole? hsole).2]
    simp [FilterTree.isSilent, FilterTree.areSilent]
  · cases h

/-- Under a key, a filter about the same records is written as the same parameters. -/
structure WrittenAs (key : String) (f g : Filter) : Prop where
  type : g.resourceType = f.resourceType
  base : g.basePath = f.basePath
  given : ∀ name, Parameters.given name (g.pairs key) = Parameters.given name (f.pairs key)

end Filter

namespace Addressed

/-- Filters that give the same values where they are written are written alike. -/
theorem given_congr {filters others : NameMap Filter} (h : Addressed filters)
    (h' : Addressed others)
    (hkept : ∀ key f, (key, f) ∈ filters → f.isWritten = true →
      ∃ g, (key, g) ∈ others ∧ f.WrittenAs key g)
    (hold : ∀ key g, (key, g) ∈ others → ∃ f, (key, f) ∈ filters ∧ f.WrittenAs key g)
    (name : String) :
    Parameters.given name (others.flatMap fun (key, f) => f.pairs key) =
      Parameters.given name (filters.flatMap fun (key, f) => f.pairs key) := by
  by_cases hsome : ∃ key f, (key, f) ∈ filters ∧ Parameters.given name (f.pairs key) ≠ []
  · obtain ⟨key, f, hf, hne⟩ := hsome
    obtain ⟨value, hvalue⟩ := List.exists_mem_of_ne_nil _ hne
    have hpair := Parameters.mem_given.1 hvalue
    have hroot := h.root key f hf _ hpair
    obtain ⟨g, hg, hsame⟩ := hkept key f hf ((Filter.isWritten_iff key).2 (List.ne_nil_of_mem hpair))
    rw [h.given_eq hf hroot, h'.given_eq hg hroot, hsame.given]
  · simp only [not_exists, not_and, Decidable.not_not] at hsome
    rw [Parameters.given_flatMap, Parameters.given_flatMap, List.flatMap_eq_nil_iff.2,
      List.flatMap_eq_nil_iff.2]
    · rintro ⟨key, f⟩ hf
      exact hsome key f hf
    · rintro ⟨key, g⟩ hg
      obtain ⟨f, hf, hsame⟩ := hold key g hg
      exact (hsame.given name).trans (hsome key f hf)

end Addressed

namespace Specification

variable {s : Schema} {config : Configuration} {resourceType : String}

/-- The filters that the text of a specification refers to. -/
def referred (spec : Specification) : List String :=
  spec.order.segments.map Segment.key ++ spec.projection.scopeKeys

/-- All filters can be read as they are written, and the filters that something is written for are
those that the order and the projection refer to. -/
structure Recoverable (config : Configuration) (spec : Specification) : Prop where
  trees : ∀ key f, (key, f) ∈ spec.filters config → f.tree.Recoverable config
  referred : ∀ key f, (key, f) ∈ spec.additionalFilters →
    (key ∈ spec.referred ↔ f.isWritten = true)

/-! ## The parameters that are written -/

/-- The values of the parameters of lists. -/
theorem values_of_lists {spec : Specification} (hconfig : config.validate = .ok ())
    (hfilters : Addressed (spec.filters config)) :
    (spec.written config).values config.orderParam = spec.order.texts ∧
      (spec.written config).values config.propertiesParam = spec.projection.texts ∧
      (spec.written config).values config.referencesParam = spec.references.texts ∧
      (spec.written config).values config.rangeParam = spec.range.toList.map Range.encode := by
  have hvalues : ∀ name ∈ config.parameterNames,
      (spec.written config).values name = Parameters.given name (spec.listPairs config) := by
    intro name hname
    rw [written, Parameters.values_ofPairs, Parameters.given_append,
      hfilters.given_list hconfig hname, List.nil_append]
  have hnodup := (Configuration.validate_ok hconfig).2.1
  simp only [Configuration.parameterNames, List.nodup_cons, List.mem_cons, List.not_mem_nil,
    or_false, not_or, not_false_eq_true, List.nodup_nil, and_true] at hnodup
  obtain ⟨⟨horderProperties, horderReferences, horderRange⟩,
    ⟨hpropertiesReferences, hpropertiesRange⟩, hreferencesRange⟩ := hnodup
  refine ⟨?_, ?_, ?_, ?_⟩ <;>
    rw [hvalues _ (by simp [Configuration.parameterNames]), listPairs, Parameters.given_append,
      Parameters.given_append, Parameters.given_append]
  · rw [Parameters.given_map, Parameters.given_map_ne (Ne.symm horderProperties),
      Parameters.given_map_ne (Ne.symm horderReferences),
      Parameters.given_map_ne (Ne.symm horderRange)]
    simp
  · rw [Parameters.given_map, Parameters.given_map_ne horderProperties,
      Parameters.given_map_ne (Ne.symm hpropertiesReferences),
      Parameters.given_map_ne (Ne.symm hpropertiesRange)]
    simp
  · rw [Parameters.given_map, Parameters.given_map_ne horderReferences,
      Parameters.given_map_ne hpropertiesReferences,
      Parameters.given_map_ne (Ne.symm hreferencesRange)]
    simp
  · rw [Parameters.given_map, Parameters.given_map_ne horderRange,
      Parameters.given_map_ne hpropertiesRange, Parameters.given_map_ne hreferencesRange]
    simp

/-- A range is read as it was written. -/
theorem range_recovers {range : Option Range}
    (hrange : ∀ r ∈ range, r.first ≤ Range.greatest ∧ r.count ≤ Range.greatest)
    {params : Parameters} (hvalues : params.values config.rangeParam =
      range.toList.map Range.encode) :
    (params.firstNonEmpty? config.rangeParam).mapM Range.parse = .ok range := by
  rw [Parameters.firstNonEmpty?, hvalues]
  cases range with
  | none => rfl
  | some r =>
      have hne : r.encode.isEmpty = false := by
        rw [String.isEmpty_eq_false_iff]
        intro hempty
        have := congrArg String.toList hempty
        simp [Range.encode] at this
      obtain ⟨hfirst, hcount⟩ := hrange r rfl
      simp [hne, Range.parse_encode hfirst hcount]

theorem range_le {params : Parameters} {name : String} {range : Option Range}
    (h : (params.firstNonEmpty? name).mapM Range.parse = .ok range) :
    ∀ r ∈ range, r.first ≤ Range.greatest ∧ r.count ≤ Range.greatest := by
  intro r hr
  cases htext : params.firstNonEmpty? name with
  | none =>
      rw [htext] at h
      cases h
      cases hr
  | some text =>
      rw [htext] at h
      obtain ⟨r', hparse, heq⟩ := map_eq_ok_iff.1 h
      rw [← heq] at hr
      cases hr
      exact Range.le_of_parse hparse

section Written

variable {params : Parameters} {keys keys' : List String} {groups groups' : NameMap FilterParameters}
  {spec : Specification}

/-- What is written refers to the filters of the segments and of the scopes. -/
theorem CompiledFrom.refers_again {written : Parameters}
    (h : CompiledFrom s config params keys groups spec)
    (horder : written.values config.orderParam = spec.order.texts)
    (hprojection : written.values config.propertiesParam = spec.projection.texts) :
    FilterParameters.referredKeys config written = .ok spec.referred := by
  obtain ⟨orders, horders, horderKeys⟩ := (SortOrder.compiled_of_values h.order).1.referred
  obtain ⟨projections, hprojections, hprojectionKeys⟩ :=
    (Projection.compiled_of_values h.projection).referred
  rw [FilterParameters.referredKeys, horder, hprojection, horders, ok_bind, hprojections, ok_bind,
    horderKeys, hprojectionKeys]
  rfl

/-- A filter that is read again is built again. -/
theorem CompiledFrom.filter_recovers (h : CompiledFrom s config params keys groups spec)
    (hconfig : config.validate = .ok ())
    (hcollect : FilterParameters.collect config keys' (spec.written config) = .ok groups')
    {key : String} {f : Filter} (hf : (key, f) ∈ spec.filters config)
    (hcounts : key = config.filterKey ∨ key ∈ keys') (htree : f.tree.Recoverable config) :
    (FilterParameters.of groups' key).basePath = (FilterParameters.of groups key).basePath ∧
    ∃ g, Filter.build s config spec.resourceType (FilterParameters.of groups' key) = .ok g ∧
      f.WrittenAs key g := by
  have hcollected := FilterParameters.collected_of_collect hcollect
  have hfrom := h.builtFrom hconfig hf
  have hbase := h.basePath_again hconfig hcollect hf hcounts
  rw [hfrom.basePath] at hbase
  obtain ⟨g, hg, hsubject, htype, hclauses⟩ := hfrom.recovers htree hbase
    (h.readFrom hconfig hcollect hf hcounts)
    (hcollected.sorted_names
      ((spec.written config).sorted.sublist (List.filter_sublist.map Prod.fst)) key)
    fun e he => ((h.mem_entries_again hconfig hcollect hf hcounts).1 he).2.2
  have hbases : g.basePath = f.basePath := congrArg Prod.snd hsubject
  refine ⟨hbase, g, hg, htype, hbases, fun name => ?_⟩
  rw [Filter.pairs, Filter.pairs, Parameters.given_append, Parameters.given_append, hclauses,
    hbases]

/-- The additional filters that are written are built again. -/
theorem CompiledFrom.additional_recovers (h : CompiledFrom s config params keys groups spec)
    (hconfig : config.validate = .ok ())
    (hcollect : FilterParameters.collect config spec.referred (spec.written config) = .ok groups')
    (hrecoverable : spec.Recoverable config) :
    ∃ additional, (groups'.filter fun entry => entry.1 ≠ config.filterKey).mapM (fun entry => do
        return (entry.1, ← Filter.build s config spec.resourceType entry.2)) = .ok additional ∧
      NameMap.Sorted additional ∧
      (∀ key f, (key, f) ∈ spec.additionalFilters → f.isWritten = true →
        ∃ g, (key, g) ∈ additional ∧ f.WrittenAs key g) ∧
      ∀ key g, (key, g) ∈ additional → ∃ f, (key, f) ∈ spec.additionalFilters ∧
        f.WrittenAs key g := by
  have hsorted := (FilterParameters.collected_of_collect hcollect).sorted
  have hbuilt : ∀ entry ∈ groups'.filter fun entry => entry.1 ≠ config.filterKey,
      ∃ built : String × Filter, (do
          return (entry.1, ← Filter.build s config spec.resourceType entry.2)) =
            (.ok built : Except Fault _) ∧
        (built.1 = entry.1 ∧ ∃ f, (entry.1, f) ∈ spec.additionalFilters ∧
          f.WrittenAs entry.1 built.2) := by
    rintro ⟨key, p⟩ hentry
    obtain ⟨hmem, hne⟩ := List.mem_filter.1 hentry
    have hne : key ≠ config.filterKey := by simpa using hne
    have hfind := NameMap.find?_of_mem hsorted hmem
    have hsome : (groups'.find? key).isSome := by
      rw [hfind]
      rfl
    obtain ⟨hcounts, f, hf⟩ := h.exists_filter hconfig hcollect hsome
    obtain ⟨-, g, hg, hsame⟩ := h.filter_recovers hconfig hcollect hf hcounts
      (hrecoverable.trees _ f hf)
    rw [FilterParameters.of, hfind, Option.getD_some] at hg
    refine ⟨(key, g), by rw [hg]; rfl, rfl, f, ?_, hsame⟩
    rcases List.mem_cons.1 hf with heq | hmem
    · exact absurd (congrArg Prod.fst heq) hne
    · exact hmem
  obtain ⟨additional, hadditional, hall⟩ := exists_mapM_ok hbuilt
  refine ⟨additional, hadditional, ?_, ?_, ?_⟩
  · rw [NameMap.Sorted, keys_of_forall₂ (hall.imp fun _ _ hsame => hsame.1)]
    exact hsorted.sublist (List.filter_sublist.map Prod.fst)
  · intro key f hf hpairs
    have hreferred := (hrecoverable.referred key f hf).2 hpairs
    obtain ⟨p, hp⟩ := Option.isSome_iff_exists.1 (h.found_again hconfig hcollect
      (List.mem_cons_of_mem _ hf) hreferred hpairs)
    have hne : key ≠ config.filterKey := by
      rintro rfl
      exact h.sorted.2 (List.mem_map_of_mem hf)
    have hentry : (key, p) ∈ groups'.filter fun entry => entry.1 ≠ config.filterKey :=
      List.mem_filter.2 ⟨NameMap.mem_of_find? hp, by simpa using hne⟩
    obtain ⟨⟨other, g⟩, hg, heq, f', hf', hsame⟩ := exists_of_forall₂ hall.flip hentry
    obtain rfl : other = key := heq
    have hfind := NameMap.find?_of_mem h.sorted.1 hf
    rw [NameMap.find?_of_mem h.sorted.1 hf', Option.some.injEq] at hfind
    subst hfind
    exact ⟨g, hg, hsame⟩
  · rintro key g hg
    obtain ⟨⟨other, p⟩, -, heq, hf⟩ := exists_of_forall₂ hall hg
    obtain rfl : key = other := heq
    exact hf

end Written

/-- A compiled specification is written. If it is recoverable, what is written is compiled again, to
a specification that is written as the same parameters. -/
theorem encode_recovers {params : Parameters} {spec : Specification}
    (hconfig : config.validate = .ok ()) (h : compile s config resourceType params = .ok spec) :
    ∃ encoded, spec.encode config = .ok encoded ∧
      (spec.Recoverable config → ∃ again, compile s config resourceType encoded = .ok again ∧
        again.encode config = .ok encoded) := by
  obtain ⟨start, keys, groups, hstart, htype, hparts⟩ := compile_eq_ok_iff.1 h
  refine ⟨_, hparts.encode_eq hconfig, fun hrecoverable => ?_⟩
  have haddressed := hparts.addressed hconfig
  obtain ⟨horder, hprojection, hreferences, hrange⟩ := values_of_lists hconfig haddressed
  have hrefers := hparts.refers_again horder hprojection
  obtain ⟨groups', hcollect⟩ := hparts.collects_again hconfig spec.referred
  have hown : (config.filterKey, spec.filter) ∈ spec.filters config := List.mem_cons_self
  obtain ⟨hbase, main, hmain, hmainSame⟩ := hparts.filter_recovers hconfig hcollect
    hown (.inl rfl) (hrecoverable.trees _ _ hown)
  obtain ⟨additional, hadditional, hsorted, hkept, hold⟩ :=
    hparts.additional_recovers hconfig hcollect hrecoverable
  have hreplaces : Replaces spec.referred spec.additionalFilters additional := by
    intro key hkey f hf
    have hmem := NameMap.mem_of_find? hf
    obtain ⟨g, hg, hsame⟩ := hkept key f hmem ((hrecoverable.referred key f hmem).1 hkey)
    exact ⟨g, NameMap.find?_of_mem hsorted hg, hsame.type, hsame.base⟩
  -- the lists are compiled with the filters that were built
  obtain ⟨hcompiled, hordered⟩ := SortOrder.compiled_of_values hparts.order
  obtain ⟨order, horders, horderEmpty, horderSame⟩ := hcompiled.recovers
    fun key hkey => hreplaces key (List.mem_append_left _ hkey)
  obtain ⟨projection, hprojections, hprojectionEmpty, hprojectionSame⟩ :=
    (Projection.compiled_of_values hparts.projection).recovers
      fun key hkey => hreplaces key (List.mem_append_right _ hkey)
  obtain ⟨references, hlisted, hreferencesEmpty, hreferencesSame⟩ :=
    (References.compiled_of_values hparts.references).recovers
  have hranges : ((spec.written config).firstNonEmpty? config.rangeParam).mapM Range.parse =
      .ok spec.range :=
    range_recovers (range_le hparts.range) hrange
  rw [hordered, ← horder] at horders
  rw [← hprojection] at hprojections
  rw [← hreferences] at hlisted
  let again : Specification :=
    ⟨spec.resourceType, main, additional, order, projection, references, spec.range⟩
  have hagain : CompiledFrom s config (spec.written config) spec.referred groups' again :=
    ⟨hrefers, hcollect, hbase.trans hparts.own, hmain, hadditional, horders, hprojections, hlisted,
      hranges⟩
  refine ⟨again, compile_eq_ok_iff.2 ⟨start, _, _, hstart, htype, hagain⟩, ?_⟩
  rw [hagain.encode_eq hconfig]
  refine congrArg Except.ok (Parameters.ofPairs_congr fun name => ?_)
  have hlists : again.listPairs config = spec.listPairs config := by
    simp only [listPairs, SortOrder.texts, Projection.texts, References.texts, again, horderEmpty,
      horderSame, hprojectionEmpty, hprojectionSame, hreferencesEmpty, hreferencesSame]
  rw [Parameters.given_append, Parameters.given_append, hlists,
    haddressed.given_congr (hagain.addressed hconfig)]
  · intro key f hf hsome
    rcases List.mem_cons.1 hf with hf | hf
    · cases hf
      exact ⟨main, List.mem_cons_self, hmainSame⟩
    · obtain ⟨g, hg, hsame⟩ := hkept key f hf hsome
      exact ⟨g, List.mem_cons_of_mem _ hg, hsame⟩
  · intro key g hg
    rcases List.mem_cons.1 hg with hg | hg
    · cases hg
      exact ⟨_, hown, hmainSame⟩
    · obtain ⟨f, hf, hsame⟩ := hold key g hg
      exact ⟨f, List.mem_cons_of_mem _ hf, hsame⟩

/-- Members of a name, those of a city first, without their city. -/
def memberRequest : Parameters :=
  Parameters.ofPairs [("f$name", "Bob"), ("vip$city", "Rome"), ("order", "$vip,name:desc"),
    ("fields", "*,-city"), ("range", "0,10")]

theorem encode_recovers_members :
    ∃ spec encoded again, Configuration.validate {} = .ok () ∧
      compile Filter.memberSchema {} "Member" memberRequest = .ok spec ∧
      spec.encode {} = .ok encoded ∧ compile Filter.memberSchema {} "Member" encoded = .ok again ∧
      again.encode {} = .ok encoded := by
  have hconfig : Configuration.validate {} = .ok () := by decide +kernel
  have hcheck : ((compile Filter.memberSchema {} "Member" memberRequest).toOption.any fun spec =>
      ((spec.filters {}).all fun entry => entry.2.comparesText) &&
        spec.additionalFilters.all fun entry => spec.referred.contains entry.1) = true := by
    decide +kernel
  rw [Option.any_eq_true] at hcheck
  obtain ⟨spec, hspec, hcheck⟩ := hcheck
  rw [Bool.and_eq_true, List.all_eq_true, List.all_eq_true] at hcheck
  obtain ⟨htexts, hreferred⟩ := hcheck
  have hcompile := toOption_eq_some_iff.1 hspec
  obtain ⟨encoded, hencoded, hrecovers⟩ := encode_recovers hconfig hcompile
  have hrecoverable : spec.Recoverable {} := by
    refine ⟨fun key f hf => Filter.recoverable_of_comparesText (htexts _ hf) (by decide)
      (by decide), fun key f hf => iff_of_true ?_ ?_⟩
    · exact List.contains_iff_mem.1 (hreferred _ hf)
    · exact Filter.isWritten_of_comparesText (htexts _ (List.mem_cons_of_mem _ hf))
  obtain ⟨again, hagain, hsame⟩ := hrecovers hrecoverable
  exact ⟨spec, encoded, again, hconfig, hcompile, hencoded, hagain, hsame⟩

/-- A condition on two properties in the deepest group is written as a group that is too deep. -/
theorem not_encode_recovers :
    ∃ spec encoded, Configuration.validate {} = .ok () ∧
      compile Filter.memberSchema {} "Member"
        (Parameters.ofPairs [("f.1.1.1.1.1.1.1$name,city", "x")]) = .ok spec ∧
      spec.encode {} = .ok encoded ∧
      ∀ again, compile Filter.memberSchema {} "Member" encoded ≠ .ok again := by
  have hconfig : Configuration.validate {} = .ok () := by decide +kernel
  have hwritten : (compile Filter.memberSchema {} "Member"
      (Parameters.ofPairs [("f.1.1.1.1.1.1.1$name,city", "x")]) >>= fun spec =>
        spec.encode {}).toOption.isSome = true := by
    -- the tree recurses on depth and items at once, so the way along it is computed instead
    simp only [Specification.encode, Filter.encode_eq_keyed]
    decide +kernel
  have hrefused : (compile Filter.memberSchema {} "Member"
      (Parameters.ofPairs [("f.1.1.1.1.1.1.1$name,city", "x")]) >>= fun spec =>
        spec.encode {} >>= compile Filter.memberSchema {} "Member").toOption.isSome = false := by
    simp only [Specification.encode, Filter.encode_eq_keyed]
    decide +kernel
  obtain ⟨encoded, hencoded⟩ := Option.isSome_iff_exists.1 hwritten
  obtain ⟨spec, hspec, hencode⟩ := bind_eq_ok_iff.1 (toOption_eq_some_iff.1 hencoded)
  refine ⟨spec, encoded, hconfig, hspec, hencode, fun again hagain => ?_⟩
  rw [hspec, ok_bind, hencode, ok_bind, hagain] at hrefused
  cases hrefused

end Specification

end ResourceQuery
