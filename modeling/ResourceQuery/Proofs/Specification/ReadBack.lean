import ResourceQuery.Proofs.Schema.WellFormed
import ResourceQuery.Proofs.Specification.Recovery
/-!
# Texts of a specification read back

The order, the references, the range and the name of each condition are written as one text. Of a
compiled specification each of these texts is read as what it was written for
(`Specification.readsBack_of_compile`).
-/

namespace ResourceQuery

/-! ## Orders -/

namespace SortOrder

variable {s : Schema} {filters : NameMap Filter} {o : SortOrder}

/-- The order that has the elements. -/
def ofElements (resourceType : String) (elements : List SortElement) : SortOrder :=
  ⟨resourceType, elements.filterMap SortElement.segment?,
    elements.filterMap SortElement.property?⟩

theorem ofElements_elements (o : SortOrder) : ofElements o.resourceType o.elements = o := by
  rw [ofElements, filterMap_segment?, filterMap_property?]

/-- An element that is read is added as it is. -/
theorem Compiled.addText_again {x : SortElement} {text : OrderText} (h : o.Compiled s filters)
    (hx : x ∈ o.elements) (hrestates : x.Restates text) (front : List SortElement) :
    (ofElements o.resourceType front).addText s filters text =
      .ok (ofElements o.resourceType (front ++ [x])) := by
  have htype : (ofElements o.resourceType front).resourceType = o.resourceType := rfl
  rcases List.mem_append.1 hx with hx | hx
  · obtain ⟨segment, hsegment, rfl⟩ := List.mem_map.1 hx
    rw [h.addText_segment hsegment hrestates (h.found segment hsegment) rfl rfl htype]
    simp [ofElements, SortElement.segment?, SortElement.property?]
  · obtain ⟨p, hp, rfl⟩ := List.mem_map.1 hx
    rw [h.addText_property hp hrestates htype]
    simp [ofElements, SortElement.segment?, SortElement.property?]

/-- A compiled order is compiled of its text. -/
theorem Compiled.compile_encode (h : o.Compiled s filters) :
    compile s filters ⟨o.resourceType, [], []⟩ o.encode = .ok o := by
  cases hempty : o.isEmpty with
  | true =>
      have hnone : o.segments = [] ∧ o.properties = [] := by simpa [isEmpty] using hempty
      have hencode : o.encode = "" := by simp [encode, elements, hnone, Text.join]
      have hown : (⟨o.resourceType, [], []⟩ : SortOrder) = o := by
        rw [← hnone.1, ← hnone.2]
      rw [hencode, hown]
      rfl
  | false =>
      obtain ⟨texts, hparse, hrestates⟩ := h.parse_encode hempty
      have hplan : ∃ again, texts.foldlM (SortOrder.addText s filters)
          (ofElements o.resourceType []) = .ok again ∧
            again = ofElements o.resourceType ([] ++ o.elements) := by
        refine foldlM_follows (fun front other => other = ofElements o.resourceType front) ?_
          hrestates rfl
        rintro front x rest text _ heq hx rfl
        rw [List.nil_append] at heq
        exact ⟨_, h.addText_again (by simp [heq]) hx front, rfl⟩
      obtain ⟨again, hagain, rfl⟩ := hplan
      rw [List.nil_append, ofElements_elements] at hagain
      rw [compile, hparse, ok_bind]
      exact hagain

end SortOrder

/-! ## References -/

namespace References

variable {s : Schema} {resourceType : String} {r r' other : References}

/-- Every path stands with the name of what it leads to. -/
def Targeted (s : Schema) (resourceType : String) (r : References) : Prop :=
  ∀ path target, r.paths.find? path = some target → ∃ resolved p,
    Path.resolve s resourceType path = .ok resolved ∧ resolved.terminal = .ok p ∧
      p.type.target?.map Target.name = some target

theorem Targeted.add {path : String} (h : r.Targeted s resourceType)
    (htype : r.resourceType = resourceType) (hadd : r.add s path = .ok r') :
    r'.Targeted s resourceType := by
  obtain ⟨resolved, -, hresolved, -, -, rfl⟩ := add_eq_ok_iff.1 hadd
  rw [htype] at hresolved
  intro front target hfound
  rcases NameMap.mem_of_find?_foldl_insert hfound with hnew | hold
  · obtain ⟨step, p, hstep, hp, htarget⟩ := mem_crossed.1 hnew
    obtain ⟨inner, hinner, hterminal, -⟩ := Path.resolve_prefix hresolved hstep hp
    exact ⟨inner, p, hinner, hterminal, htarget⟩
  · exact h front target hold

theorem targeted_of_values {values : List String}
    (h : values.foldlM (compile s) ⟨resourceType, []⟩ = .ok r) : r.Targeted s resourceType := by
  have hresult : r.resourceType = resourceType ∧ r.Targeted s resourceType := by
    refine foldlM_invariant (P := fun r : References => r.resourceType = resourceType ∧
      r.Targeted s resourceType) h ⟨rfl, fun _ _ hfound => by cases hfound⟩ ?_
    intro r value r' _ hr hcompile
    obtain ⟨texts, -, hadd⟩ := bind_eq_ok_iff.1 hcompile
    refine foldlM_invariant (P := fun r : References => r.resourceType = resourceType ∧
      r.Targeted s resourceType) hadd hr ?_
    intro r text r' _ hr hadd
    have hadd := located_eq_ok_iff.1 hadd
    refine ⟨?_, hr.2.add hr.1 hadd⟩
    obtain ⟨-, -, -, -, -, rfl⟩ := add_eq_ok_iff.1 hadd
    exact hr.1
  exact hresult.2

/-- The paths that are listed say what references are. -/
theorem Compiled.eq_of_keys (h : r.Compiled s resourceType) (h' : other.Compiled s resourceType)
    (htargets : r.Targeted s resourceType) (htargets' : other.Targeted s resourceType)
    (hkeys : NameMap.keys r.paths = NameMap.keys other.paths) : r = other := by
  have hpaths : r.paths = other.paths := by
    refine h.sorted.ext h'.sorted fun path => ?_
    by_cases hlisted : path ∈ NameMap.keys r.paths
    · obtain ⟨target, hfound⟩ := Option.isSome_iff_exists.1 (NameMap.contains_iff.2 hlisted)
      obtain ⟨target', hfound'⟩ :=
        Option.isSome_iff_exists.1 (NameMap.contains_iff.2 (hkeys ▸ hlisted))
      obtain ⟨resolved, p, hresolved, hterminal, htarget⟩ := htargets path target hfound
      obtain ⟨resolved', p', hresolved', hterminal', htarget'⟩ := htargets' path target' hfound'
      obtain rfl := Except.ok.inj (hresolved.symm.trans hresolved')
      obtain rfl := Except.ok.inj (hterminal.symm.trans hterminal')
      rw [hfound, hfound', ← htarget, htarget']
    · rw [NameMap.find?_eq_none hlisted, NameMap.find?_eq_none (hkeys ▸ hlisted)]
  cases r
  cases other
  cases hpaths
  cases h.type.trans h'.type.symm
  rfl

/-- Compiled references are compiled of their text. -/
theorem Compiled.compile_encode (h : r.Compiled s resourceType)
    (htargets : r.Targeted s resourceType) :
    compile s ⟨resourceType, []⟩ r.encode = .ok r := by
  cases hempty : r.isEmpty with
  | true =>
      have hnone : r.paths = [] := by simpa [isEmpty] using hempty
      have hencode : r.encode = "" := by rw [encode, hnone]; rfl
      have hown : (⟨resourceType, []⟩ : References) = r := by rw [← hnone, ← h.type]
      rw [hencode, hown]
      rfl
  | false =>
      obtain ⟨again, hagain, hsame, htext⟩ := h.recovers
      have hcompiled := compiled_of_values hagain
      have hfilled : ∀ r : References, r.isEmpty = false → NameMap.keys r.paths ≠ [] := by
        intro r hempty hnone
        rw [isEmpty, List.map_eq_nil_iff.1 hnone] at hempty
        cases hempty
      -- the text says which paths are listed
      obtain ⟨texts, hparse, hkeys⟩ := PathText.parseList_join (hfilled r hempty)
        fun path hpath => h.dotted path (NameMap.contains_iff.2 hpath)
      obtain ⟨texts', hparse', hkeys'⟩ := PathText.parseList_join
        (hfilled again (hsame.trans hempty))
        fun path hpath => hcompiled.dotted path (NameMap.contains_iff.2 hpath)
      rw [encode, encode] at htext
      rw [htext, hparse] at hparse'
      cases hparse'
      obtain rfl := h.eq_of_keys hcompiled htargets (targeted_of_values hagain)
        (hkeys.symm.trans hkeys')
      rwa [References.texts, hempty, if_neg Bool.false_ne_true, foldlM_singleton] at hagain

end References

/-! ## Conditions -/

/-- The name that the condition is written with, behind the mark of a group, is read as its path,
its options and its test. -/
def Condition.ReadsBack (c : Condition) : Prop :=
  ∃ name values, c.encode = .ok (name, values) ∧
    ∀ root groups, GroupKey.Readable root groups → ∃ text reading,
      FilterParameter.parse (Text.join "." (root :: groups) ++ "$" ++ name) =
        .ok (.condition ⟨root :: groups⟩ text) ∧
      text.paths.map PathText.path = [c.path.text] ∧
      Qualifier.ofCondition text.qualifiers = .ok reading ∧
      reading.options.operandKind = c.options.operandKind ∧
      reading.options.transform = c.options.transform ∧ text.negated = c.options.negated ∧
      reading.test = if c.test = .equality true then none else some c.test

theorem Condition.Made.readsBack {s : Schema} {scope : String} {c : Condition}
    (h : c.Made s scope) : c.ReadsBack := by
  refine ⟨_, _, Condition.encode_eq h.isSome_toText?, fun root groups hkey => ?_⟩
  obtain ⟨text, hparse, hpaths, hnegated, hmeaning⟩ := h.toReadable.parse hkey
  exact ⟨text, _, hparse, hpaths, hmeaning, rfl, rfl, hnegated, rfl⟩

/-! ## Specifications -/

namespace Specification

variable {s : Schema} {config : Configuration} {spec : Specification}

/-- Every part that is written as one text is read back from it. -/
structure ReadsBack (s : Schema) (config : Configuration) (spec : Specification) : Prop where
  order : (SortOrder.none s spec.resourceType >>= fun start =>
    SortOrder.compile s spec.additionalFilters start spec.order.encode) = .ok spec.order
  references : (References.none s spec.resourceType >>= fun start =>
    References.compile s start spec.references.encode) = .ok spec.references
  range : ∀ range, spec.range = some range → Range.parse range.encode = .ok range
  conditions : ∀ key f, (key, f) ∈ spec.filters config → ∀ c ∈ f.conditions, c.ReadsBack

/-- All texts of a compiled specification are read back. -/
theorem readsBack_of_compile (hconfig : config.validate = .ok ()) {resourceType : String}
    {params : Parameters} (h : compile s config resourceType params = .ok spec) :
    spec.ReadsBack s config := by
  obtain ⟨start, keys, groups, hstart, htype, hparts⟩ := compile_eq_ok_iff.1 h
  obtain ⟨c, hresource, hname, hown⟩ := resource_of_all hstart
  rw [← hown, htype] at hresource hname
  constructor
  case order =>
    obtain ⟨hcompiled, hordered⟩ := SortOrder.compiled_of_values hparts.order
    have hread := hcompiled.compile_encode
    rw [hordered] at hread
    rw [SortOrder.none, hresource, ok_bind, hname]
    exact hread
  case references =>
    rw [References.none, hresource, ok_bind, hname]
    exact (References.compiled_of_values hparts.references).compile_encode
      (References.targeted_of_values hparts.references)
  case range =>
    intro range hrange
    obtain ⟨hfirst, hcount⟩ := range_le hparts.range range hrange
    exact Range.parse_encode hfirst hcount
  case conditions =>
    intro key f hf c hc
    exact ((hparts.builtFrom hconfig hf).made c hc).readsBack

/-- Users by the customers of their orders, those with a small number last. -/
def sortedUsers : Parameters :=
  Parameters.ofPairs [("f$order:id:ne!", "7"), ("small$id:le", "9"),
    ("order", "$small,order.customer:id:desc"), ("refs", "order.customer"), ("range", "20,10")]

theorem sortedUsers_readsBack : Configuration.validate {} = .ok () ∧
    ∃ spec, compile orderSchema {} "User" sortedUsers = .ok spec ∧
      spec.order.encode = "$small,order.customer:id:desc" ∧
      spec.references.encode = "order,order.customer" ∧
      spec.range.map Range.encode = some "20,10" ∧ spec.filter.conditions ≠ [] ∧
      spec.ReadsBack orderSchema {} := by
  have hconfig : Configuration.validate {} = .ok () := by decide +kernel
  have hlists : ((compile orderSchema {} "User" sortedUsers).toOption.any fun spec =>
      spec.order.encode = "$small,order.customer:id:desc" &&
        spec.references.encode = "order,order.customer" &&
          spec.range.map Range.encode = some "20,10" &&
            !spec.filter.conditions.isEmpty) = true := by
    simp only [Filter.conditions, Filter.tree, Filter.conditions_treeAt]
    decide +kernel
  obtain ⟨spec, hspec, hwritten⟩ := (Option.any_eq_true _ _).1 hlists
  have hcompile := toOption_eq_some_iff.1 hspec
  simp only [Bool.and_eq_true, decide_eq_true_eq, Bool.not_eq_true', List.isEmpty_eq_false_iff]
    at hwritten
  obtain ⟨⟨⟨horder, hreferences⟩, hrange⟩, hconditions⟩ := hwritten
  exact ⟨hconfig, spec, hcompile, horder, hreferences, hrange, hconditions,
    readsBack_of_compile hconfig hcompile⟩

end Specification

end ResourceQuery
