import ResourceQuery.Proofs.Specification.Written
/-!
# Specifications written and compiled again

The parameters of a specification are always written. Where they are compiled again, every filter
has the truth of the tree `FilterTree.reread`, and a filter whose tree is faithful keeps its truth.
An equality with an empty text is not faithful: it is read as a test of presence.
-/

namespace ResourceQuery

namespace Filter

/-- The only condition of a filter that has nothing else. -/
def sole? (f : Filter) : Option Condition :=
  match f.basePath, f.groups with
  | none, [⟨.conjunction, _, [.condition c], _⟩] => some c
  | _, _ => none

theorem of_sole? {f : Filter} {c : Condition} (h : f.sole? = some c) :
    f.basePath = none ∧ f.tree = .group .conjunction [.condition c] := by
  unfold sole? at h
  split at h
  · rename_i hbase hgroups
    cases h
    refine ⟨hbase, ?_⟩
    simp [tree, hgroups, treeAt, treesAt, group?, root]
  · cases h

end Filter

namespace Specification

/-- A compiled specification is written. Where what is written is compiled again, every filter that
is in both has the truth of what is read of its tree: the truth it had, if the tree is faithful. -/
theorem filters_reread {s : Schema} {config : Configuration} {resourceType : String}
    {params : Parameters} {spec : Specification} (hconfig : config.validate = .ok ())
    (h : compile s config resourceType params = .ok spec) :
    ∃ encoded, spec.encode config = .ok encoded ∧
      ∀ again, compile s config resourceType encoded = .ok again →
        ∀ key f g, (key, f) ∈ spec.filters config → (key, g) ∈ again.filters config → ∀ v,
          g.holds (Condition.truth v) = f.tree.reread.holds (Condition.truth v) ∧
            (f.tree.Faithful → g.holds (Condition.truth v) = f.holds (Condition.truth v)) := by
  obtain ⟨start, keys, groups, hstart, htype, hparts⟩ := compile_eq_ok_iff.1 h
  refine ⟨_, hparts.encode_eq hconfig, ?_⟩
  intro again hagain key f g hf hg v
  obtain ⟨start', keys', groups', hstart', htype', hparts'⟩ := compile_eq_ok_iff.1 hagain
  obtain rfl : start = start' := Except.ok.inj (hstart.symm.trans hstart')
  have hfrom := hparts.builtFrom hconfig hf
  obtain ⟨hkey, hbuild⟩ := hparts'.filters_ok key g hg
  rw [← htype', htype] at hbuild
  have hcounts : key = config.filterKey ∨ key ∈ keys' := hkey.elim .inl fun hsome =>
    (hparts.exists_filter hconfig hparts'.collects hsome).1
  have hbase := hparts.basePath_again hconfig hparts'.collects hf hcounts
  rw [hfrom.basePath] at hbase
  have hreread := hfrom.holds_again hbase (hparts.readFrom hconfig hparts'.collects hf hcounts)
    hbuild v
  refine ⟨hreread, ?_⟩
  intro hfaithful
  rw [hreread]
  exact hfaithful.holds_reread hfrom.group (fun c hc => (hfrom.made c hc).toSound) v

/-! ## One condition -/

/-- The only condition of a specification that asks for nothing else. -/
def sole? (spec : Specification) : Option Condition :=
  if spec.additionalFilters.isEmpty && spec.order.isEmpty && spec.projection.isEmpty &&
    spec.references.isEmpty && spec.range.isNone then spec.filter.sole? else none

theorem of_sole? {spec : Specification} {c : Condition} (h : spec.sole? = some c)
    (htexts : ∀ operand ∈ c.operands, operand.toText?.isSome) (config : Configuration) :
    spec.filter.tree = .group .conjunction [.condition c] ∧
      spec.encode config = .ok (Parameters.ofPairs
        (c.texts.map fun text => (config.filterKey ++ "$" ++ c.suffix, text))) := by
  unfold sole? at h
  split at h
  · rename_i hplain
    simp only [Bool.and_eq_true, List.isEmpty_iff, Option.isNone_iff_eq_none] at hplain
    obtain ⟨⟨⟨⟨hadditional, horder⟩, hprojection⟩, hreferences⟩, hrange⟩ := hplain
    obtain ⟨hbase, htree⟩ := Filter.of_sole? h
    have hfilter : spec.filter.encode config.filterKey =
        .ok (c.texts.map fun text => (config.filterKey ++ "$" ++ c.suffix, text)) := by
      rw [Filter.encode_eq_pairs (by
        simpa [htree, FilterTree.conditions, FilterTree.conditionsOf] using htexts)]
      simp [Filter.pairs, hbase, htree, FilterTree.clauses, FilterTree.clausesOf,
        FilterTree.junctionClauses, FilterClause.pairs, Text.join]
    refine ⟨htree, ?_⟩
    rw [encode, hfilter, ok_bind, hadditional]
    simp [horder, hprojection, hreferences, hrange]
    rfl
  · cases h

/-- The members that a parameter asks for. -/
def memberSpecification (name value : String) : Except Fault Specification :=
  compile Filter.memberSchema {} "Member" (Parameters.ofPairs [(name, value)])

/-- What the only condition of such a specification tests, and how it is written. -/
def summary (outcome : Except Fault Specification) :
    Option (Test × ConditionOptions × String × List (Option String)) :=
  (outcome.toOption.bind sole?).map fun c =>
    (c.test, c.options, c.suffix, c.operands.map Value.toText?)

theorem of_summary {outcome : Except Fault Specification} {test : Test}
    {options : ConditionOptions} {suffix : String} {texts : List String}
    (h : summary outcome = some (test, options, suffix, texts.map some)) :
    ∃ spec c, outcome = .ok spec ∧ spec.filter.tree = .group .conjunction [.condition c] ∧
      c.test = test ∧ c.options = options ∧ c.operands.map Value.toText? = texts.map some ∧
      spec.encode {} = .ok (Parameters.ofPairs
        ((if texts = [] then [""] else texts).map fun text => ("f$" ++ suffix, text))) := by
  obtain ⟨c, hc, heq⟩ := Option.map_eq_some_iff.1 h
  obtain ⟨spec, hspec, hsole⟩ := Option.bind_eq_some_iff.1 hc
  simp only [Prod.mk.injEq] at heq
  obtain ⟨rfl, rfl, rfl, hoperands⟩ := heq
  have htexts : ∀ operand ∈ c.operands, operand.toText?.isSome := by
    intro operand hoperand
    have hmem : operand.toText? ∈ texts.map some := by
      rw [← hoperands]
      exact List.mem_map_of_mem hoperand
    obtain ⟨text, -, htext⟩ := List.mem_map.1 hmem
    rw [← htext]
    rfl
  obtain ⟨htree, hencode⟩ := of_sole? hsole htexts {}
  refine ⟨spec, c, toOption_eq_some_iff.1 hspec, htree, rfl, rfl, hoperands, ?_⟩
  have hwritten : c.texts = if texts = [] then [""] else texts := by
    have hempty : c.operands = [] ↔ texts = [] := by
      rw [← List.map_eq_nil_iff (f := Value.toText?), hoperands, List.map_eq_nil_iff]
    have hmap : c.operands.map (fun operand => operand.toText?.getD "") = texts := by
      have hget := congrArg (List.map fun text => text.getD "") hoperands
      simpa [Function.comp_def] using hget
    rw [Condition.texts, hmap]
    simp [hempty]
  rw [hencode, hwritten]
  rfl

theorem filters_reread_members :
    ∃ spec encoded again, memberSpecification "f$name:eq!" "Bob" = .ok spec ∧
      spec.encode {} = .ok encoded ∧
      compile Filter.memberSchema {} "Member" encoded = .ok again ∧
      ∀ v, again.filter.holds (Condition.truth v) = spec.filter.holds (Condition.truth v) := by
  have hconfig : Configuration.validate {} = .ok () := by decide +kernel
  have hwritten : summary (memberSpecification "f$name:eq!" "Bob") =
      some (.equality true, ⟨none, .value, true⟩, "name!", ["Bob"].map some) := by
    decide +kernel
  have hread : summary (memberSpecification "f$name!" "Bob") =
      some (.equality true, ⟨none, .value, true⟩, "name!", ["Bob"].map some) := by
    decide +kernel
  obtain ⟨spec, c, hspec, htree, -, -, hoperands, hencode⟩ := of_summary hwritten
  obtain ⟨again, -, hagain, -⟩ := of_summary hread
  have hfaithful : spec.filter.tree.Faithful := by
    rw [htree]
    intro g hg
    obtain rfl : g = (.conjunction, [.condition c]) := by
      simpa [FilterTree.groups, FilterTree.groupsOf] using hg
    refine ⟨?_, ?_, ?_⟩
    · intro d hd _ operand hoperand
      obtain rfl : d = c := by simpa using hd
      have hmem : operand.toText? ∈ ["Bob"].map some := by
        rw [← hoperands]
        exact List.mem_map_of_mem hoperand
      rw [List.mem_singleton.1 hmem]
      decide
    · intro d e hd he _
      obtain rfl : d = c := by simpa using hd
      obtain rfl : e = d := by simpa using he
      exact .inr fun _ => Iff.rfl
    · intro item _ _
      rfl
  obtain ⟨encoded, hencoded, hreread⟩ := filters_reread hconfig hspec
  rw [hencode] at hencoded
  cases hencoded
  refine ⟨spec, _, again, hspec, hencode, hagain, ?_⟩
  intro v
  exact (hreread again hagain "f" spec.filter again.filter (by simp [filters])
    (by simp [filters]) v).2 hfaithful

/-- An equality with an empty text is read as a test of presence. -/
theorem not_reread_blank :
    ∃ spec encoded again, memberSpecification "f$name:eq" "" = .ok spec ∧
      spec.encode {} = .ok encoded ∧
      compile Filter.memberSchema {} "Member" encoded = .ok again ∧
      ∃ v, again.filter.holds (Condition.truth v) ≠ spec.filter.holds (Condition.truth v) := by
  have hwritten : summary (memberSpecification "f$name:eq" "") =
      some (.equality true, {}, "name", [""].map some) := by
    decide +kernel
  have hread : summary (memberSpecification "f$name" "") =
      some (.presence true, {}, "name:nempty", [].map some) := by
    decide +kernel
  obtain ⟨spec, c, hspec, htree, htest, hoptions, hoperands, hencode⟩ := of_summary hwritten
  obtain ⟨again, d, hagain, htree', htest', hoptions', -⟩ := of_summary hread
  refine ⟨spec, _, again, hspec, hencode, hagain, fun t => t.test == .equality true, ?_⟩
  have hsome : c.operands ≠ [] := by
    intro hnone
    rw [hnone] at hoperands
    cases hoperands
  have htrue : c.truth (fun t => t.test == .equality true) = true := by
    obtain ⟨operand, rest, heq⟩ := List.exists_cons_of_ne_nil hsome
    simp [Condition.truth, Condition.passes, Condition.atom, htest, hoptions, heq, Test.isPresence,
      Test.takesOperands]
  have hfalse : d.truth (fun t => t.test == .equality true) = false := by
    simp [Condition.truth, Condition.passes, Condition.atom, htest', hoptions', Test.isPresence,
      Test.takesOperands]
  rw [Filter.holds, Filter.holds, htree, htree', FilterTree.holds_group, FilterTree.holds_group]
  simp [Junction.holds, FilterTree.holds, htrue, hfalse]

end Specification

end ResourceQuery
