import ResourceQuery.Proofs.Specification.Compiled
/-!
# What a compiled specification is written as

A filter is written as parameters that are addressed to its key, so a name that is addressed to a
filter has the values that this filter gives it (`Addressed.given_eq`). Sorted again, what a compiled
specification is written as is the base paths of its filters and the entries of their trees
(`Specification.CompiledFrom.basePath_again`, `Specification.CompiledFrom.mem_entries_again`).
-/

namespace ResourceQuery

namespace Filter

/-- The parameters of a filter under a key. -/
def pairs (f : Filter) (key : String) : List (String × String) :=
  (f.basePath.map fun path => (key ++ "@", path.text)).toList ++
    (f.tree.clauses [key]).flatMap FilterClause.pairs

/-- A filter whose operands have texts is written. -/
theorem encode_eq_pairs {f : Filter} {key : String}
    (h : ∀ c ∈ f.tree.conditions, ∀ operand ∈ c.operands, operand.toText?.isSome) :
    f.encode key = .ok (f.pairs key) := by
  have htree := FilterTree.parameters_eq (List.cons_ne_nil key []) h
  unfold encode pairs
  rw [Text.join] at htree
  rw [htree]
  cases f.basePath <;> rfl

namespace BuiltFrom

variable {s : Schema} {config : Configuration} {resourceType key name value : String}
  {parameters : FilterParameters} {f : Filter}
  (hf : f.BuiltFrom s config resourceType key parameters)

include hf

/-- No parameter of a clause is that of a base path. -/
theorem parse_of_mem_clauses
    (h : (name, value) ∈ (f.tree.clauses [key]).flatMap FilterClause.pairs) :
    ∃ p, FilterParameter.parse name = .ok p ∧ p.key = key ∧ ∀ other, p ≠ .basePath other := by
  obtain ⟨x, hx, hpair⟩ := List.mem_flatMap.1 h
  obtain ⟨groups, hgroups, -⟩ := readable_of_mem_clauses hf.identifier hx
  have hhead : GroupKey.root ⟨x.key⟩ = key := by
    rw [hgroups]
    rfl
  obtain rfl : name = x.name := name_of_mem_pairs hx hpair
  rcases isSingle_of_mem_clauses x hx with heq | ⟨c, heq⟩
  · exact ⟨_, parse_junction_name hf.identifier hx heq, hhead, by simp⟩
  · obtain ⟨text, hparse, -⟩ := parse_condition_name hf.identifier hf.made hx heq
    exact ⟨_, hparse, hhead, by simp⟩

/-- The name of a parameter of a filter is read, and addressed to the filter. -/
theorem parse_of_mem_pairs (h : (name, value) ∈ f.pairs key) :
    ∃ p, FilterParameter.parse name = .ok p ∧ p.key = key := by
  rcases List.mem_append.1 h with h | h
  · obtain ⟨path, -, heq⟩ := Option.map_eq_some_iff.1 (Option.mem_toList.1 h)
    cases heq
    exact ⟨_, FilterParameter.parse_basePath hf.identifier, rfl⟩
  · obtain ⟨p, hparse, hp, -⟩ := hf.parse_of_mem_clauses h
    exact ⟨p, hparse, hp⟩

/-- The parameter of a base path has the base path as its only value. -/
theorem given_basePath {other : String} (hparse : FilterParameter.parse name = .ok (.basePath other))
    (hne : Parameters.given name (f.pairs key) ≠ []) :
    ∃ path, f.basePath = some path ∧ Parameters.given name (f.pairs key) = [path.text] := by
  have hclauses : Parameters.given name ((f.tree.clauses [key]).flatMap FilterClause.pairs) = [] := by
    apply Parameters.given_eq_nil
    rintro ⟨_, value⟩ hpair rfl
    obtain ⟨p, hp, -, hbase⟩ := hf.parse_of_mem_clauses hpair
    rw [hparse] at hp
    exact hbase other (Except.ok.inj hp).symm
  rw [pairs, Parameters.given_append, hclauses, List.append_nil] at hne ⊢
  cases hbase : f.basePath with
  | none => simp [hbase, Parameters.given] at hne
  | some path =>
      refine ⟨path, rfl, ?_⟩
      by_cases hname : key ++ "@" = name
      · simp [Parameters.given, hname]
      · simp [hbase, Parameters.given, hname] at hne

/-- The other parameters have the values of the clauses. -/
theorem given_clauses {p : FilterParameter} (hparse : FilterParameter.parse name = .ok p)
    (hp : ∀ other, p ≠ .basePath other) :
    Parameters.given name (f.pairs key) =
      Parameters.given name ((f.tree.clauses [key]).flatMap FilterClause.pairs) := by
  have hbase : Parameters.given name
      (f.basePath.map fun path => (key ++ "@", path.text)).toList = [] := by
    apply Parameters.given_eq_nil
    rintro pair hpair rfl
    obtain ⟨path, -, rfl⟩ := Option.map_eq_some_iff.1 (Option.mem_toList.1 hpair)
    have hown := FilterParameter.parse_basePath hf.identifier
    exact hp key (Except.ok.inj (hparse.symm.trans hown))
  rw [pairs, Parameters.given_append, hbase, List.nil_append]

end BuiltFrom

/-- Something is written for the filter. -/
def isWritten (f : Filter) : Bool := f.basePath.isSome || !f.tree.isSilent

theorem isWritten_iff {f : Filter} (key : String) : f.isWritten = true ↔ f.pairs key ≠ [] := by
  rw [isWritten, Bool.or_eq_true, Bool.not_eq_true', FilterTree.isSilent_eq_false_iff [key], pairs,
    ne_eq, List.append_eq_nil_iff, not_and_or]
  apply or_congr
  · cases f.basePath <;> simp
  · constructor
    · rintro ⟨x, hx⟩ hnone
      obtain ⟨pair, hpair⟩ := FilterTree.exists_mem_pairs hx
      exact List.not_mem_nil (hnone ▸ List.mem_flatMap.2 ⟨x, hx, hpair⟩)
    · intro hne
      obtain ⟨pair, hpair⟩ := List.exists_mem_of_ne_nil _ hne
      obtain ⟨x, hx, -⟩ := List.mem_flatMap.1 hpair
      exact ⟨x, hx⟩

end Filter

/-- The filters have different keys, and what is written for each is addressed to its key. -/
structure Addressed (filters : NameMap Filter) : Prop where
  nodup : filters.keys.Nodup
  root : ∀ key f, (key, f) ∈ filters → ∀ pair ∈ f.pairs key,
    FilterParameter.root? pair.1 = some key
  marked : ∀ key f, (key, f) ∈ filters → ∀ pair ∈ f.pairs key,
    '$' ∈ pair.1.toList ∨ '@' ∈ pair.1.toList

namespace Addressed

/-- A name that is addressed to a filter has the values that the filter gives it. -/
theorem given_eq {filters : NameMap Filter} (h : Addressed filters) {key name : String} {f : Filter}
    (hf : (key, f) ∈ filters) (hname : FilterParameter.root? name = some key) :
    Parameters.given name (filters.flatMap fun (key, f) => f.pairs key) =
      Parameters.given name (f.pairs key) := by
  have hother : ∀ other g, (other, g) ∈ filters → other ≠ key →
      Parameters.given name (g.pairs other) = [] := by
    intro other g hg hne
    apply Parameters.given_eq_nil
    rintro pair hpair rfl
    have hroot := h.root other g hg pair hpair
    rw [hname, Option.some.injEq] at hroot
    exact hne hroot.symm
  have hnodup := h.nodup
  clear h
  induction filters with
  | nil => cases hf
  | cons entry rest ih =>
      obtain ⟨other, g⟩ := entry
      rw [NameMap.keys, List.map_cons, List.nodup_cons] at hnodup
      rw [List.flatMap_cons, Parameters.given_append]
      rcases List.mem_cons.1 hf with heq | hf
      · cases heq
        rw [Parameters.given_flatMap, List.flatMap_eq_nil_iff.2, List.append_nil]
        rintro ⟨other, g⟩ hg
        refine hother other g (List.mem_cons_of_mem _ hg) ?_
        rintro rfl
        exact hnodup.1 (List.mem_map.2 ⟨_, hg, rfl⟩)
      · rw [hother other g (by simp), List.nil_append,
          ih hf (fun other g hg => hother other g (List.mem_cons_of_mem _ hg)) hnodup.2]
        rintro rfl
        exact hnodup.1 (List.mem_map.2 ⟨_, hf, rfl⟩)

/-- No filter is written with the name of another parameter. -/
theorem given_list {filters : NameMap Filter} (h : Addressed filters) {config : Configuration}
    (hconfig : config.validate = .ok ()) {name : String} (hname : name ∈ config.parameterNames) :
    Parameters.given name (filters.flatMap fun (key, f) => f.pairs key) = [] := by
  apply Parameters.given_eq_nil
  rintro pair hpair rfl
  obtain ⟨⟨key, f⟩, hf, hpair⟩ := List.mem_flatMap.1 hpair
  obtain ⟨hdollar, hat⟩ := (Configuration.validate_ok hconfig).2.2 _ hname
  exact (h.marked key f hf pair hpair).elim hdollar hat

end Addressed

namespace Specification

/-- The parameters of a specification other than those of filters. -/
def listPairs (spec : Specification) (config : Configuration) : List (String × String) :=
  spec.order.texts.map (fun text => (config.orderParam, text)) ++
    (spec.projection.texts.map (fun text => (config.propertiesParam, text)) ++
      (spec.references.texts.map (fun text => (config.referencesParam, text)) ++
        (spec.range.toList.map Range.encode).map fun text => (config.rangeParam, text)))

theorem name_of_mem_listPairs {spec : Specification} {config : Configuration}
    {pair : String × String} (h : pair ∈ spec.listPairs config) :
    pair.1 ∈ config.parameterNames := by
  simp only [listPairs, List.mem_append, List.mem_map] at h
  rw [Configuration.parameterNames]
  rcases h with ⟨_, -, rfl⟩ | ⟨_, -, rfl⟩ | ⟨_, -, rfl⟩ | ⟨_, -, rfl⟩ <;> simp

/-- The parameters of a specification, those of the filters first. -/
def written (spec : Specification) (config : Configuration) : Parameters :=
  Parameters.ofPairs
    (((spec.filters config).flatMap fun (key, f) => f.pairs key) ++ spec.listPairs config)

/-- A specification whose filters are written is written. -/
theorem encode_eq_written {spec : Specification} {config : Configuration}
    (h : ∀ key f, (key, f) ∈ spec.filters config → f.encode key = .ok (f.pairs key)) :
    spec.encode config = .ok (spec.written config) := by
  have hmain := h config.filterKey spec.filter (by simp [filters])
  have hadditional : spec.additionalFilters.mapM (fun (key, filter) => filter.encode key) =
      .ok (spec.additionalFilters.map fun (key, f) => f.pairs key) := by
    rw [mapM_eq_ok_iff, List.map_map]
    apply List.map_congr_left
    intro entry hentry
    exact h entry.1 entry.2 (List.mem_cons_of_mem _ hentry)
  have hfilters : (spec.filters config).flatMap (fun (key, f) => f.pairs key) =
      spec.filter.pairs config.filterKey ++
        (spec.additionalFilters.map fun (key, f) => f.pairs key).flatten := by
    rw [filters, List.flatMap_cons, List.flatten_eq_flatMap, List.flatMap_map]
    rfl
  have hsingle : ∀ (empty : Bool) (name text : String), (if empty then [] else [(name, text)]) =
      (if empty then [] else [text]).map fun text => (name, text) := by
    intro empty name text
    cases empty <;> rfl
  have hrange : (spec.range.map fun range => (config.rangeParam, range.encode)).toList =
      (spec.range.toList.map Range.encode).map fun text => (config.rangeParam, text) := by
    cases spec.range <;> rfl
  rw [written, encode, hmain, ok_bind, hadditional, ok_bind, hfilters, hsingle, hsingle, hsingle,
    hrange, List.append_assoc, List.append_assoc]
  rfl

section

variable {s : Schema} {config : Configuration} {params : Parameters} {keys : List String}
  {groups : NameMap FilterParameters} {spec : Specification}
  (h : CompiledFrom s config params keys groups spec) (hconfig : config.validate = .ok ())

include h hconfig

theorem CompiledFrom.addressed : Addressed (spec.filters config) where
  nodup := by
    obtain ⟨hsorted, hown⟩ := h.sorted
    refine List.nodup_cons.2 ⟨hown, List.Pairwise.imp ?_ hsorted⟩
    rintro a b hlt rfl
    exact String.lt_irrefl _ hlt
  root := by
    intro key f hf pair hpair
    obtain ⟨p, hparse, hkey⟩ := (h.builtFrom hconfig hf).parse_of_mem_pairs hpair
    rw [FilterParameter.root?_of_parse hparse, hkey]
  marked := by
    intro key f hf pair hpair
    obtain ⟨p, hparse, -⟩ := (h.builtFrom hconfig hf).parse_of_mem_pairs hpair
    exact FilterParameter.marker_mem_of_root? (FilterParameter.root?_of_parse hparse)

theorem CompiledFrom.encode_eq : spec.encode config = .ok (spec.written config) := by
  refine encode_eq_written fun key f hf => Filter.encode_eq_pairs fun c hc => ?_
  exact ((h.builtFrom hconfig hf).made c hc).isSome_toText?

/-! ## Sorted again -/

variable {keys' : List String} {groups' : NameMap FilterParameters}

/-- A name that is addressed to a filter is written with the values that the filter gives it. -/
theorem CompiledFrom.mem_addressed_iff {key : String} {f : Filter}
    (hf : (key, f) ∈ spec.filters config) {name : String} {values : List String}
    {p : FilterParameter} (hparse : FilterParameter.parse name = .ok p) (hkey : p.key = key) :
    (name, values) ∈ (spec.written config).entries.filter
        (fun entry => FilterParameters.isAddressed config keys' entry.1) ↔
      (key = config.filterKey ∨ key ∈ keys') ∧ values ≠ [] ∧
        values = Parameters.given name (f.pairs key) := by
  subst hkey
  have hroot := FilterParameter.root?_of_parse hparse
  have hlists : Parameters.given name (spec.listPairs config) = [] := by
    apply Parameters.given_eq_nil
    rintro pair hpair rfl
    rw [FilterParameters.root?_of_mem_parameterNames hconfig (name_of_mem_listPairs hpair)] at hroot
    cases hroot
  rw [List.mem_filter, FilterParameters.isAddressed_iff_of_parse hconfig hparse, written,
    Parameters.mem_entries_ofPairs, Parameters.given_append, hlists, List.append_nil,
    (h.addressed hconfig).given_eq hf hroot, and_comm]

/-- An addressed name that is written is one of a filter. -/
theorem CompiledFrom.exists_filter_of_addressed {name : String} {values : List String}
    (hmem : (name, values) ∈ (spec.written config).entries.filter
      (fun entry => FilterParameters.isAddressed config keys' entry.1)) :
    ∃ p f, FilterParameter.parse name = .ok p ∧ (p.key, f) ∈ spec.filters config := by
  obtain ⟨hentry, haddressed⟩ := List.mem_filter.1 hmem
  obtain ⟨hne, rfl⟩ := Parameters.mem_entries_ofPairs.1 hentry
  obtain ⟨value, hvalue⟩ := Parameters.given_ne_nil_iff.1 hne
  obtain ⟨_, -, hother, -⟩ := FilterParameters.isAddressed_iff.1 haddressed
  rcases List.mem_append.1 hvalue with hpair | hlist
  · obtain ⟨⟨key, f⟩, hf, hpair⟩ := List.mem_flatMap.1 hpair
    obtain ⟨p, hparse, rfl⟩ := (h.builtFrom hconfig hf).parse_of_mem_pairs hpair
    exact ⟨p, f, hparse, hf⟩
  · exact absurd (name_of_mem_listPairs hlist) hother

/-- What is written is sorted under the filters again. -/
theorem CompiledFrom.collects_again (keys' : List String) :
    ∃ groups', FilterParameters.collect config keys' (spec.written config) = .ok groups' := by
  apply FilterParameters.collect_isOk
  intro name values hentry haddressed
  have hadded : (name, values) ∈ (spec.written config).entries.filter
      (fun entry => FilterParameters.isAddressed config keys' entry.1) :=
    List.mem_filter.2 ⟨hentry, haddressed⟩
  obtain ⟨p, f, hparse, hf⟩ := h.exists_filter_of_addressed hconfig hadded
  obtain ⟨-, hne, rfl⟩ := (h.mem_addressed_iff hconfig hf hparse rfl).1 hadded
  refine ⟨p, hparse, ?_⟩
  rintro other rfl
  obtain ⟨path, -, hpath⟩ := (h.builtFrom hconfig hf).given_basePath hparse hne
  exact ⟨path.text, hpath⟩

section Collected

variable (hcollect : FilterParameters.collect config keys' (spec.written config) = .ok groups')

include hcollect

/-- What is sorted under a key is written for a filter with that key, which counts. -/
theorem CompiledFrom.exists_filter {key : String} (hkey : (groups'.find? key).isSome) :
    (key = config.filterKey ∨ key ∈ keys') ∧ ∃ f, (key, f) ∈ spec.filters config := by
  have hcollected := FilterParameters.collected_of_collect hcollect
  obtain ⟨name, values, p, hadded, hparse, rfl⟩ := (hcollected.keys key).1 hkey
  obtain ⟨p', f, hparse', hf⟩ := h.exists_filter_of_addressed hconfig hadded
  obtain rfl := Except.ok.inj (hparse'.symm.trans hparse)
  exact ⟨((h.mem_addressed_iff hconfig hf hparse rfl).1 hadded).1, f, hf⟩

variable {key : String} {f : Filter} (hf : (key, f) ∈ spec.filters config)

include hf

/-- A filter that is written and referred to is sorted under its key. -/
theorem CompiledFrom.found_again (hkey : key ∈ keys') (hpairs : f.isWritten = true) :
    (groups'.find? key).isSome := by
  obtain ⟨⟨name, value⟩, hpair⟩ :=
    List.exists_mem_of_ne_nil _ ((Filter.isWritten_iff key).1 hpairs)
  obtain ⟨p, hparse, hp⟩ := (h.builtFrom hconfig hf).parse_of_mem_pairs hpair
  exact ((FilterParameters.collected_of_collect hcollect).keys key).2 ⟨name, _, p,
    (h.mem_addressed_iff hconfig hf hparse hp).2
      ⟨.inr hkey, Parameters.given_ne_nil_iff.2 ⟨value, hpair⟩, rfl⟩, hparse, hp⟩

variable (hcounts : key = config.filterKey ∨ key ∈ keys')

include hcounts

/-- The base path under the key of a filter is that of the filter. -/
theorem CompiledFrom.basePath_again :
    (FilterParameters.of groups' key).basePath = f.basePath.map Path.text := by
  have hcollected := FilterParameters.collected_of_collect hcollect
  have hfrom := h.builtFrom hconfig hf
  cases hread : (FilterParameters.of groups' key).basePath with
  | some text =>
      obtain ⟨name, hadded, hparse⟩ := hcollected.basePath key text hread
      obtain ⟨-, hne, hgiven⟩ := (h.mem_addressed_iff hconfig hf hparse rfl).1 hadded
      rw [hgiven] at hne
      obtain ⟨path, hpath, hown⟩ := hfrom.given_basePath hparse hne
      obtain rfl : text = path.text := by simpa [hown] using hgiven
      rw [hpath]
      rfl
  | none =>
      cases hbase : f.basePath with
      | none => rfl
      | some path =>
          have hparse := FilterParameter.parse_basePath hfrom.identifier
          have hpair : (key ++ "@", path.text) ∈ f.pairs key := by
            rw [Filter.pairs, hbase]
            simp
          have hsome := hcollected.based key _ _ ((h.mem_addressed_iff hconfig hf hparse rfl).2
            ⟨hcounts, Parameters.given_ne_nil_iff.2 ⟨_, hpair⟩, rfl⟩) hparse
          rw [hread] at hsome
          cases hsome

/-- The entries under the key of a filter are those of the names that its tree is written with, with
all values of their names. -/
theorem CompiledFrom.mem_entries_again {e : FilterEntry} :
    e ∈ (FilterParameters.of groups' key).entries ↔
      (∃ p, FilterParameter.parse e.name = .ok p ∧
        FilterParameters.entryFor? e.name e.values p = some e) ∧ e.values ≠ [] ∧
        e.values = Parameters.given e.name ((f.tree.clauses [key]).flatMap FilterClause.pairs) := by
  have hfrom := h.builtFrom hconfig hf
  have hplain : ∀ {p : FilterParameter}, FilterParameters.entryFor? e.name e.values p = some e →
      ∀ other, p ≠ .basePath other := by
    rintro _ hentry other rfl
    cases hentry
  rw [(FilterParameters.collected_of_collect hcollect).entries key e]
  constructor
  · rintro ⟨p, hadded, hparse, hp, hentry⟩
    obtain ⟨-, hne, hvalues⟩ := (h.mem_addressed_iff hconfig hf hparse hp).1 hadded
    rw [hfrom.given_clauses hparse (hplain hentry)] at hvalues
    exact ⟨⟨p, hparse, hentry⟩, hne, hvalues⟩
  · rintro ⟨⟨p, hparse, hentry⟩, hne, hvalues⟩
    obtain ⟨value, hpair⟩ := Parameters.given_ne_nil_iff.1 (hvalues ▸ hne)
    obtain ⟨p', hparse', hp, -⟩ := hfrom.parse_of_mem_clauses hpair
    obtain rfl := Except.ok.inj (hparse'.symm.trans hparse)
    rw [← hfrom.given_clauses hparse (hplain hentry)] at hvalues
    exact ⟨p', (h.mem_addressed_iff hconfig hf hparse hp).2 ⟨hcounts, hne, hvalues⟩, hparse, hp,
      hentry⟩

theorem CompiledFrom.readFrom : Filter.ReadFrom
    ((f.tree.clauses [key]).flatMap FilterClause.pairs) (FilterParameters.of groups' key).entries := by
  have hentries := fun {e} => h.mem_entries_again hconfig hcollect hf hcounts (e := e)
  refine ⟨?_, fun e he => (hentries.1 he).1, ?_⟩
  · intro e he
    obtain ⟨-, hne, hvalues⟩ := hentries.1 he
    refine ⟨hne, fun value => ?_⟩
    rw [hvalues, Parameters.mem_given]
  · intro name value hpair
    obtain ⟨p, hparse, -, hplain⟩ := (h.builtFrom hconfig hf).parse_of_mem_clauses hpair
    obtain ⟨e, hentry⟩ := FilterParameters.exists_entryFor? name
      (Parameters.given name ((f.tree.clauses [key]).flatMap FilterClause.pairs)) hplain
    obtain ⟨rfl, hvalues, -⟩ := FilterParameters.entryFor?_eq_some_iff.1 hentry
    refine ⟨e, hentries.2 ⟨⟨p, hparse, hvalues ▸ hentry⟩, ?_, hvalues⟩, rfl⟩
    rw [hvalues]
    exact Parameters.given_ne_nil_iff.2 ⟨value, hpair⟩

end Collected

end

end Specification

end ResourceQuery
