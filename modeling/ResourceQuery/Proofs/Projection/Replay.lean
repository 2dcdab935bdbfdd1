import ResourceQuery.Proofs.Compile.Projection
import ResourceQuery.Proofs.Filter.Numbering
import ResourceQuery.Proofs.Path.Composition
import ResourceQuery.Proofs.Schema.Naming
/-!
# Projections put together again from their text

The text of a projection is read as calls that put together another one. Both include and write the
same properties. What is fetched and the scopes of aggregates are written only where a rule includes
them: a fetched path that was excluded later is lost, and so is the scope of an excluded aggregate.
A projection without such paths is settled, and these are all that come back as they were
(`Projection.replay_iff_settled`).
-/

namespace ResourceQuery

namespace Path

variable {d : SchemaDocument} {s : Schema}

theorem Follows.isIdentifier_name (hbuild : d.build = .ok s) {c : Container}
    {steps : List PathStep} (h : Follows s c steps) (hc : c ∈ s.containers) :
    ∀ step ∈ steps, Text.isIdentifier step.name.toList = true := by
  have hproperty : ∀ {c : Container} {p : Property}, c ∈ s.containers →
      c.property? p.name = some p → Text.isIdentifier p.name.toList = true := fun hc hp =>
    SchemaDocument.build_named hbuild _ hc _ (List.mem_of_find?_eq_some hp)
  induction h with
  | done _ => exact List.forall_mem_nil _
  | last hp => exact List.forall_mem_singleton.2 (hproperty hc hp)
  | property hp hopened _ ih =>
      obtain ⟨hnext, -⟩ := Schema.container?_some (opened_eq_some hopened).2.2
      exact List.forall_mem_cons.2 ⟨hproperty hc hp, ih hnext⟩
  | variant _ hv _ ih =>
      obtain ⟨hvariant, rfl⟩ := Schema.container?_some hv
      have hname := (SchemaDocument.build_isNamed hbuild _ hvariant).name
      exact List.forall_mem_cons.2 ⟨hname, ih hvariant⟩

/-- In a built schema only dotted texts are paths. -/
theorem isDotted_of_resolve (hbuild : d.build = .ok s) {start text : String} {path : Path}
    (h : resolve s start text = .ok path) : Text.IsDotted text := by
  obtain ⟨-, -, hnames, -, c, hc, hfollows⟩ := resolve_ok h
  obtain ⟨hmem, -⟩ := Schema.container?_some (Schema.container_eq_ok_iff.1 hc)
  have hidentifiers : ∀ name ∈ segments text, Text.isIdentifier name.toList = true := by
    rw [← hnames]
    exact List.forall_mem_map.2 (hfollows.isIdentifier_name hbuild hmem)
  have hjoin := join_segments text
  cases hlist : segments text with
  | nil => exact absurd hlist (segments_ne_nil text)
  | cons first others =>
      rw [hlist] at hidentifiers hjoin
      exact ⟨first, others, hjoin.symm, hidentifiers⟩

/-- The text is the other one, or stands in front of it on the same way. -/
def LeadsTo (front text : String) : Prop :=
  front = text ∨ Text.startsWith text (front ++ ".") = true

/-- Of paths that lead to a property that passes, those that lead to a path are on its way. -/
theorem mem_passing_iff_leadsTo {start front text : String} {inner path : Path} {p : Property}
    {test : Property → Bool} (h : resolve s start text = .ok path)
    (hinner : resolve s start front = .ok inner) (hterminal : inner.terminal = .ok p)
    (htest : test p = true) : front ∈ path.passing test ↔ LeadsTo front text := by
  constructor
  · intro hmem
    obtain ⟨step, q, hstep, -, -⟩ := mem_passing.1 hmem
    obtain ⟨before, -, rfl, more, hmore⟩ := steps_of_mem_prefixes h hstep
    have htext := join_segments text
    rw [← hmore] at htext
    cases more with
    | nil => exact .inl (by rwa [List.append_nil] at htext)
    | cons name rest =>
        right
        rw [Text.startsWith, List.isPrefixOf_iff_prefix, ← htext, toList_join_append (by simp)]
        simp
  · rintro (rfl | hstarts)
    · rw [h] at hinner
      cases hinner
      exact self_mem_passing h hterminal htest
    · obtain ⟨rest, hrest⟩ := List.isPrefixOf_iff_prefix.1 hstarts
      obtain rfl : front ++ "." ++ String.ofList rest = text := by
        apply String.toList_inj.1
        rw [← hrest, String.toList_append, String.toList_ofList]
      obtain ⟨before, step, next, behind, hbefore, -, -, -, rfl⟩ := resolve_append.1 h
      obtain rfl := Except.ok.inj (hbefore.symm.trans hinner)
      obtain ⟨step, q, hmem, hq⟩ := mem_passing.1 (self_mem_passing hinner hterminal htest)
      exact mem_passing.2 ⟨step, q, (prefixesFrom_append _ _ _).subset hmem, hq⟩

end Path

namespace Projection

variable {s : Schema} {filters : NameMap Filter} {resourceType : String} {p q : Projection}

/-! ## Calls -/

/-- Projections that are put together step by step, where every key stands for one filter. -/
inductive Assembled (s : Schema) (filters : NameMap Filter) (resourceType : String) :
    Projection → Prop
  | none {p : Projection} (h : Projection.none s resourceType = .ok p) :
    Assembled s filters resourceType p
  | includeAll {p q : Projection} (hp : Assembled s filters resourceType p)
    (h : p.includeAll = .ok q) : Assembled s filters resourceType q
  | includePath {p q : Projection} {path : String} (hp : Assembled s filters resourceType p)
    (h : p.includePath s path = .ok q) : Assembled s filters resourceType q
  | excludePath {p q : Projection} {path : String} (hp : Assembled s filters resourceType p)
    (h : p.excludePath s path = .ok q) : Assembled s filters resourceType q
  | fetchPath {p q : Projection} {path : String} (hp : Assembled s filters resourceType p)
    (h : p.fetchPath s path = .ok q) : Assembled s filters resourceType q
  | scopePath {p q : Projection} {path key : String} {filter : Filter}
    (hp : Assembled s filters resourceType p) (hkey : filters.find? key = some filter)
    (h : p.scopePath s path key filter = .ok q) : Assembled s filters resourceType q

theorem none_ok (h : Projection.none s resourceType = .ok p) :
    p = ⟨resourceType, false, [], [], []⟩ := by
  obtain ⟨c, hc, h⟩ := bind_eq_ok_iff.1 h
  cases h
  rw [resource_name hc]

theorem Assembled.exists_none (h : Assembled s filters resourceType p) :
    ∃ fresh, Projection.none s resourceType = .ok fresh := by
  induction h with
  | none h => exact ⟨_, h⟩
  | includeAll _ _ ih => exact ih
  | includePath _ _ ih => exact ih
  | excludePath _ _ ih => exact ih
  | fetchPath _ _ ih => exact ih
  | scopePath _ _ _ ih => exact ih

/-- Every call is one that an element of a text can ask for. -/
theorem Assembled.compiled {d : SchemaDocument} (hbuild : d.build = .ok s)
    (hkeys : ∀ key f, filters.find? key = some f → Text.isIdentifier key.toList = true)
    (h : Assembled s filters resourceType p) : p.Compiled s filters resourceType := by
  induction h with
  | none h =>
      rw [none_ok h]
      exact compiled_empty
  | @includeAll p q _ h ih =>
      have hadd : p.addText s filters (.includeAll .unknown) = .ok q := located_eq_ok_iff.2 h
      refine ih.addText ?_ hadd
      exact trivial
  | @includePath p q path _ h ih =>
      obtain ⟨_, _, hresolved, -⟩ := includePath_eq_ok_iff.1 h
      have hadd : p.addText s filters (.includePath ⟨path, .unknown⟩) = .ok q :=
        located_eq_ok_iff.2 h
      refine ih.addText ?_ hadd
      exact Path.isDotted_of_resolve hbuild hresolved
  | @excludePath p q path _ h ih =>
      obtain ⟨_, _, hresolved, -⟩ := excludePath_eq_ok_iff.1 h
      have hadd : p.addText s filters (.excludePath ⟨path, .unknown⟩) = .ok q :=
        located_eq_ok_iff.2 h
      refine ih.addText ?_ hadd
      exact Path.isDotted_of_resolve hbuild hresolved
  | @fetchPath p q path _ h ih =>
      obtain ⟨_, _, hresolved, -⟩ := fetchPath_eq_ok_iff.1 h
      have hadd : p.addText s filters (.fetchPath ⟨path, .unknown⟩) = .ok q :=
        located_eq_ok_iff.2 h
      refine ih.addText ?_ hadd
      exact Path.isDotted_of_resolve hbuild hresolved
  | @scopePath p q path key filter _ hkey h ih =>
      obtain ⟨⟨_, _, _, hresolved, -⟩, -⟩ := scopePath_eq_ok_iff.1 h
      have hadd : p.addText s filters (.scopePath ⟨path, .unknown⟩ key) = .ok q := by
        rw [addText, additionalFilter_eq_ok_iff.2 hkey, ok_bind]
        exact located_eq_ok_iff.2 h
      refine ih.addText ?_ hadd
      exact ⟨Path.isDotted_of_resolve hbuild hresolved, hkeys key filter hkey⟩

/-! ## What is put in again -/

/-- A rule that includes the path is written as a fetch. -/
def IsFetch (p : Projection) (path : String) : Prop :=
  p.scopes.find? path = Option.none ∧ p.fetched.contains path = true

/-- What elements put in again of the fetched paths and the scopes of a projection. -/
structure Restores (p : Projection) (front : List (Option (String × Bool)))
    (other : Projection) : Prop where
  fetched : ∀ path, other.fetched.contains path = true ↔ p.fetched.contains path = true ∧
    ∃ whole, some (whole, true) ∈ front ∧ p.IsFetch whole ∧ Path.LeadsTo path whole
  scopes : ∀ path scope, other.scopes.find? path = some scope ↔
    some (path, true) ∈ front ∧ p.scopes.find? path = some scope

/-- An element that is neither a fetch nor a scope puts nothing in again. -/
theorem Restores.snoc {other next : Projection} {front : List (Option (String × Bool))}
    {item : Option (String × Bool)} (h : p.Restores front other)
    (hfetched : next.fetched = other.fetched) (hscopes : next.scopes = other.scopes)
    (hitem : ∀ path, item = some (path, true) →
      p.scopes.find? path = Option.none ∧ ¬p.fetched.contains path = true) :
    p.Restores (front ++ [item]) next where
  fetched := by
    intro path
    rw [hfetched, h.fetched]
    refine and_congr_right fun _ => exists_congr fun whole => ?_
    rw [List.mem_append, List.mem_singleton]
    refine and_congr_left fun hwhole => ⟨.inl, ?_⟩
    rintro (hmem | heq)
    · exact hmem
    · exact absurd hwhole.1.2 (hitem whole heq.symm).2
  scopes := by
    intro path scope
    rw [hscopes, h.scopes, List.mem_append, List.mem_singleton]
    refine and_congr_left fun hscope => ⟨.inl, ?_⟩
    rintro (hmem | heq)
    · exact hmem
    · rw [(hitem path heq.symm).1] at hscope
      cases hscope

/-- A path that is fetched is fetched again, with all fetched paths on the way. -/
theorem Compiled.restores_fetch {other next : Projection} {front : List (Option (String × Bool))}
    {path : String} (h : p.Compiled s filters resourceType) (hother : p.Restores front other)
    (htype : other.resourceType = resourceType) (hpath : p.IsFetch path)
    (hnext : other.fetchPath s path = .ok next) :
    p.Restores (front ++ [some (path, true)]) next := by
  obtain ⟨resolved, property, hresolved, hterminal, htarget, rfl⟩ := fetchPath_eq_ok_iff.1 hnext
  rw [htype] at hresolved
  obtain ⟨found, _, hfound, -, -, hclosed⟩ := h.closed path hpath.2
  obtain rfl : found = resolved := Except.ok.inj (hfound.symm.trans hresolved)
  -- the paths on the way that pass are fetched, and no others
  have hcrossed : ∀ inner, inner ∈ NameMap.keys (crossed found) ↔
      p.fetched.contains inner = true ∧ Path.LeadsTo inner path := by
    intro inner
    rw [keys_crossed]
    constructor
    · intro hinner
      obtain ⟨innerPath, q, hresolved', hterminal', htest, -⟩ := Path.resolve_passing hfound hinner
      exact ⟨hclosed inner hinner,
        (Path.mem_passing_iff_leadsTo hfound hresolved' hterminal' htest).1 hinner⟩
    · rintro ⟨hinner, hleads⟩
      obtain ⟨innerPath, q, hresolved', hterminal', htest, -⟩ := h.closed inner hinner
      exact (Path.mem_passing_iff_leadsTo hfound hresolved' hterminal' htest).2 hleads
  constructor
  case fetched =>
    intro inner
    rw [NameMap.contains_foldl_insert, hcrossed, hother.fetched, ← and_or_left]
    refine and_congr_right fun _ => ⟨?_, ?_⟩
    · rintro (hleads | ⟨whole, hmem, hwhole⟩)
      · exact ⟨path, by simp, hpath, hleads⟩
      · exact ⟨whole, List.mem_append_left _ hmem, hwhole⟩
    · rintro ⟨whole, hmem, hwhole, hleads⟩
      rcases List.mem_append.1 hmem with hmem | hmem
      · exact .inr ⟨whole, hmem, hwhole, hleads⟩
      · cases List.mem_singleton.1 hmem
        exact .inl hleads
  case scopes =>
    intro inner scope
    rw [hother.scopes, List.mem_append, List.mem_singleton]
    refine and_congr_left fun hscope => ⟨.inl, ?_⟩
    rintro (hmem | heq)
    · exact hmem
    · cases heq
      rw [hpath.1] at hscope
      cases hscope

/-- The scope of an aggregate is put in again with the filter that its key stands for. -/
theorem restores_scope {other next : Projection} {front : List (Option (String × Bool))}
    {path : String} {scope : AggregateScope} (hother : p.Restores front other)
    (hscope : p.scopes.find? path = some scope)
    (hnext : other.scopePath s path scope.key scope.filter = .ok next) :
    p.Restores (front ++ [some (path, true)]) next := by
  obtain ⟨-, rfl⟩ := scopePath_eq_ok_iff.1 hnext
  constructor
  case fetched =>
    intro inner
    rw [hother.fetched]
    refine and_congr_right fun _ => exists_congr fun whole => ?_
    rw [List.mem_append, List.mem_singleton]
    refine and_congr_left fun hwhole => ⟨.inl, ?_⟩
    rintro (hmem | heq)
    · exact hmem
    · cases heq
      rw [hwhole.1.1] at hscope
      cases hscope
  case scopes =>
    intro inner found
    rw [NameMap.find?_insert, List.mem_append, List.mem_singleton]
    split
    · rename_i heq
      subst heq
      simp [hscope]
    · rename_i hne
      rw [hother.scopes]
      refine and_congr_left fun _ => ⟨.inl, ?_⟩
      rintro (hmem | heq)
      · exact hmem
      · cases heq
        exact absurd rfl hne

/-- An element puts in again what the item that it restates stands for. -/
theorem Compiled.restores_addText {other next : Projection} {front : List (Option (String × Bool))}
    {item : Option (String × Bool)} {text : ProjectionText}
    (h : p.Compiled s filters resourceType) (hother : p.Restores front other)
    (htype : other.resourceType = resourceType) (hrestates : p.Restates item text)
    (hnext : other.addText s filters text = .ok next) : p.Restores (front ++ [item]) next := by
  cases item with
  | none =>
      obtain ⟨position, rfl⟩ := hrestates
      obtain ⟨-, -, rfl⟩ := includeAll_eq_ok_iff.1 (located_eq_ok_iff.1 hnext)
      exact hother.snoc rfl rfl fun _ heq => by cases heq
  | some rule =>
      obtain ⟨_, rule⟩ := rule
      obtain ⟨path, rfl, rfl⟩ := hrestates
      cases rule with
      | false =>
          obtain ⟨_, _, -, -, rfl⟩ := excludePath_eq_ok_iff.1 (located_eq_ok_iff.1 hnext)
          exact hother.snoc rfl rfl fun _ heq => by cases heq
      | true =>
          cases hscope : p.scopes.find? path.path with
          | some scope =>
              simp only [ruleText, hscope, Bool.not_true, Bool.false_eq_true, if_false,
                Projection.addText,
                additionalFilter_eq_ok_iff.2 (h.scopes _ scope hscope).2.1, ok_bind] at hnext
              exact restores_scope hother hscope (located_eq_ok_iff.1 hnext)
          | none =>
              by_cases hfetched : p.fetched.contains path.path = true
              · simp only [ruleText, hscope, hfetched, Bool.not_true, Bool.false_eq_true, if_false,
                  if_true, Projection.addText] at hnext
                exact h.restores_fetch hother htype ⟨hscope, hfetched⟩ (located_eq_ok_iff.1 hnext)
              · simp only [ruleText, hscope, hfetched, Bool.not_true, Bool.false_eq_true, if_false,
                  Projection.addText] at hnext
                obtain ⟨_, _, -, -, -, rfl⟩ := includePath_eq_ok_iff.1 (located_eq_ok_iff.1 hnext)
                refine hother.snoc rfl rfl fun inner heq => ?_
                cases heq
                exact ⟨hscope, hfetched⟩

/-- The elements of the text put in all rules again, and what rules include. -/
theorem Compiled.replay (h : p.Compiled s filters resourceType) :
    ∃ texts again, ProjectionText.parse p.encode = .ok texts ∧
      texts.foldlM (Projection.addText s filters) ⟨resourceType, false, [], [], []⟩ = .ok again ∧
      p.Reads p.items again ∧ p.Restores p.items again := by
  have hstart : p.Reads [] ⟨resourceType, false, [], [], []⟩ ∧
      p.Restores [] ⟨resourceType, false, [], [], []⟩ :=
    ⟨⟨h.type.symm, by simp, rfl, by simp [NameMap.contains], by simp, by simp, by simp⟩,
      by simp [NameMap.contains], by simp⟩
  cases hempty : p.isEmpty with
  | true =>
      have hnone : p.includeByDefault = false ∧ p.rules = [] := by simpa [isEmpty] using hempty
      have hitems : p.items = [] := by simp [items, hnone]
      have hencode : p.encode = "" := by simp [encode, hnone, Text.join]
      rw [hitems, hencode]
      exact ⟨[], _, rfl, rfl, hstart⟩
  | false =>
      obtain ⟨texts, hparse, hrestates⟩ := h.parse_encode hempty
      have hplan := foldlM_follows (f := Projection.addText s filters)
        (fun front other => p.Reads front other ∧ p.Restores front other) ?_ hrestates hstart
      · obtain ⟨again, hagain, hreads, hrestores⟩ := hplan
        exact ⟨texts, again, hparse, hagain, hreads, hrestores⟩
      · intro front item rest text other heq hitem hother
        have hsame : Replaces p.scopeKeys filters filters := fun _ _ f hf => ⟨f, hf, rfl, rfl⟩
        obtain ⟨next, hnext, hreads⟩ := h.addText_restates hsame heq hitem hother.1
        exact ⟨next, hnext, hreads,
          h.restores_addText hother.2 (hother.1.type.trans h.type) hitem hnext⟩

/-! ## Answers -/

/-- What is fetched may only be more if the fetched paths are. -/
theorem isFetchRequested_mono {other : Projection}
    (h : ∀ path, other.fetched.contains path = true → p.fetched.contains path = true)
    {path : String} (hasked : other.isFetchRequested path = true) :
    p.isFetchRequested path = true := by
  unfold isFetchRequested at hasked ⊢
  split at hasked
  · rw [List.any_eq_true] at hasked ⊢
    obtain ⟨inner, hinner, hstarts⟩ := hasked
    exact ⟨inner, NameMap.contains_iff.1 (h inner (NameMap.contains_iff.2 hinner)), hstarts⟩
  · exact h path hasked

/-- A path without a star asks for itself. -/
theorem isFetchRequested_of_isDotted {path : String} (h : Text.IsDotted path) :
    p.isFetchRequested path = p.fetched.contains path := by
  unfold isFetchRequested
  split
  · rename_i rest hreverse
    refine absurd ?_ (h.notMem (c := '*') (by decide) (by decide))
    rw [← List.mem_reverse, hreverse]
    exact List.mem_cons_self
  · rfl

/-- What is included and written is told by the rules. -/
theorem Reads.answers {other : Projection} (h : p.Reads p.items other) :
    (∀ path, other.isIncluded path = p.isIncluded path) ∧
      ∀ path fetchedByDefault, other.isWritten path fetchedByDefault =
        p.isWritten path fetchedByDefault := by
  have hrules : other.rules = p.rules := h.rules.trans p.rules_of_items
  have hall : other.includeByDefault = p.includeByDefault := by
    rw [Bool.eq_iff_iff, h.all, items]
    cases p.includeByDefault <;> simp
  have hrule : ∀ path, other.ruleFor? path = p.ruleFor? path := by
    intro path
    rw [ruleFor?, ruleFor?, hrules]
  have hbelow : ∀ path, other.includesBelow path = p.includesBelow path := by
    intro path
    rw [includesBelow, includesBelow, hrules]
  constructor
  · intro path
    rw [isIncluded, isIncluded, hrule, hall]
  · intro path fetchedByDefault
    rw [isWritten, isWritten, hbelow, hrule, hrules, hall]

/-- Everything that is fetched, and every scope, is there because of a rule that still includes
it. -/
structure Settled (p : Projection) : Prop where
  fetched : ∀ path, p.fetched.contains path = true →
    ∃ whole, p.rules.find? whole = some true ∧ p.IsFetch whole ∧ Path.LeadsTo path whole
  scopes : ∀ path, (p.scopes.find? path).isSome → p.rules.find? path = some true

theorem Compiled.mem_items_iff (h : p.Compiled s filters resourceType) {path : String} :
    some (path, true) ∈ p.items ↔ p.rules.find? path = some true := by
  rw [NameMap.find?_eq_some_iff h.sorted, items, List.mem_append, List.mem_map]
  cases p.includeByDefault <;> simp

/-- What was put in again is all there was, if and only if the projection is settled. -/
theorem Compiled.settled_iff {d : SchemaDocument} (hbuild : d.build = .ok s)
    (h : p.Compiled s filters resourceType) {again : Projection}
    (hagain : p.Restores p.items again) :
    p.Settled ↔ (∀ path, again.isFetchRequested path = p.isFetchRequested path) ∧
      ∀ path, again.scopes.find? path = p.scopes.find? path := by
  constructor
  · rintro ⟨hfetched, hscopes⟩
    refine ⟨fun path => ?_, fun path => ?_⟩
    · rw [Bool.eq_iff_iff]
      refine ⟨isFetchRequested_mono fun inner hinner => ((hagain.fetched inner).1 hinner).1,
        isFetchRequested_mono fun inner hinner => ?_⟩
      obtain ⟨whole, hrule, hwhole, hleads⟩ := hfetched inner hinner
      exact (hagain.fetched inner).2 ⟨hinner, whole, h.mem_items_iff.2 hrule, hwhole, hleads⟩
    · refine Option.ext fun scope => ?_
      rw [hagain.scopes, and_iff_right_iff_imp]
      intro hscope
      exact h.mem_items_iff.2 (hscopes path (by rw [hscope]; rfl))
  · rintro ⟨hfetched, hscopes⟩
    refine ⟨fun path hpath => ?_, fun path hpath => ?_⟩
    · obtain ⟨_, _, hresolved, -⟩ := h.closed path hpath
      have hdotted := Path.isDotted_of_resolve hbuild hresolved
      have hsame := hfetched path
      rw [isFetchRequested_of_isDotted hdotted, isFetchRequested_of_isDotted hdotted,
        hpath] at hsame
      obtain ⟨-, whole, hmem, hwhole⟩ := (hagain.fetched path).1 hsame
      exact ⟨whole, h.mem_items_iff.1 hmem, hwhole⟩
    · obtain ⟨scope, hscope⟩ := Option.isSome_iff_exists.1 hpath
      exact h.mem_items_iff.1 ((hagain.scopes path scope).1 ((hscopes path).trans hscope)).1

/-- The text of a projection that calls put together is read, and its elements put together one that
includes and writes the same. It fetches nothing else and has no other scopes; both are the same if
and only if the projection is settled, that is if nothing that was fetched and no scope was excluded
later. -/
theorem replay_iff_settled {d : SchemaDocument} (hbuild : d.build = .ok s)
    (hkeys : ∀ key f, filters.find? key = some f → Text.isIdentifier key.toList = true)
    (h : Assembled s filters resourceType p) :
    ∃ texts fresh again, ProjectionText.parse p.encode = .ok texts ∧
      Projection.none s resourceType = .ok fresh ∧
      texts.foldlM (addText s filters) fresh = .ok again ∧
      (∀ path, again.isIncluded path = p.isIncluded path) ∧
      (∀ path fetchedByDefault, again.isWritten path fetchedByDefault =
        p.isWritten path fetchedByDefault) ∧
      (∀ path, again.isFetchRequested path = true → p.isFetchRequested path = true) ∧
      (∀ path scope, again.scopes.find? path = some scope → p.scopes.find? path = some scope) ∧
      (p.Settled ↔ (∀ path, again.isFetchRequested path = p.isFetchRequested path) ∧
        ∀ path, again.scopes.find? path = p.scopes.find? path) := by
  have hcompiled := h.compiled hbuild hkeys
  obtain ⟨fresh, hfresh⟩ := h.exists_none
  obtain ⟨texts, again, hparse, hagain, hreads, hrestores⟩ := hcompiled.replay
  obtain ⟨hincluded, hwritten⟩ := hreads.answers
  refine ⟨texts, fresh, again, hparse, hfresh, none_ok hfresh ▸ hagain, hincluded, hwritten, ?_, ?_,
    hcompiled.settled_iff hbuild hrestores⟩
  · exact fun path => isFetchRequested_mono fun inner hinner =>
      ((hrestores.fetched inner).1 hinner).1
  · exact fun path scope hscope => ((hrestores.scopes path scope).1 hscope).2

/-- Users with the customers of their orders, and not the orders themselves. -/
def customerProjection : Projection :=
  ⟨"User", true, [("id", false), ("order.customer", true)],
    [("order", "Order"), ("order.customer", "User")], []⟩

theorem customerProjection_replay :
    orderDocument.build = .ok orderSchema ∧
    Assembled orderSchema [] "User" customerProjection ∧
    ∃ texts fresh again, ProjectionText.parse customerProjection.encode = .ok texts ∧
      Projection.none orderSchema "User" = .ok fresh ∧
      texts.foldlM (addText orderSchema []) fresh = .ok again ∧
      ∀ path, again.isFetchRequested path = customerProjection.isFetchRequested path := by
  have hbuild : orderDocument.build = .ok orderSchema := rfl
  have hall : Projection.includeAll ⟨"User", false, [], [], []⟩ =
      .ok ⟨"User", true, [], [], []⟩ := rfl
  have hfetch : Projection.fetchPath orderSchema ⟨"User", true, [], [], []⟩ "order.customer" =
      .ok ⟨"User", true, [("order.customer", true)],
        [("order", "Order"), ("order.customer", "User")], []⟩ := rfl
  have hexclude : Projection.excludePath orderSchema ⟨"User", true, [("order.customer", true)],
      [("order", "Order"), ("order.customer", "User")], []⟩ "id" = .ok customerProjection := rfl
  have hassembled : Assembled orderSchema [] "User" customerProjection :=
    .excludePath (.fetchPath (.includeAll (.none rfl) hall) hfetch) hexclude
  obtain ⟨texts, fresh, again, hparse, hfresh, hagain, -, -, -, -, hsettled⟩ :=
    replay_iff_settled hbuild (fun _ _ h => by cases h) hassembled
  refine ⟨hbuild, hassembled, texts, fresh, again, hparse, hfresh, hagain, ?_⟩
  refine (hsettled.1 ⟨fun path hpath => ?_, fun path hpath => by cases hpath⟩).1
  refine ⟨"order.customer", rfl, ⟨rfl, rfl⟩, ?_⟩
  have hfetched : path = "order" ∨ path = "order.customer" := by
    simpa [NameMap.keys, customerProjection] using NameMap.contains_iff.1 hpath
  rcases hfetched with rfl | rfl
  · exact .inr rfl
  · exact .inl rfl

/-- An order that was fetched and excluded then. -/
def excludedProjection : Projection := ⟨"User", false, [("order", false)], [("order", "Order")], []⟩

/-- The excluded order is fetched still, and not by the projection that is put together again. -/
theorem not_settled_order :
    orderDocument.build = .ok orderSchema ∧
    Assembled orderSchema [] "User" excludedProjection ∧
    excludedProjection.isFetchRequested "order" = true ∧
    ∀ texts fresh again, ProjectionText.parse excludedProjection.encode = .ok texts →
      Projection.none orderSchema "User" = .ok fresh →
      texts.foldlM (addText orderSchema []) fresh = .ok again →
      again.isFetchRequested "order" = false := by
  have hfetch : Projection.fetchPath orderSchema ⟨"User", false, [], [], []⟩ "order" =
      .ok ⟨"User", false, [("order", true)], [("order", "Order")], []⟩ := rfl
  have hexclude : Projection.excludePath orderSchema
      ⟨"User", false, [("order", true)], [("order", "Order")], []⟩ "order" =
        .ok excludedProjection := rfl
  refine ⟨rfl, .excludePath (.fetchPath (.none rfl) hfetch) hexclude, rfl, ?_⟩
  intro texts fresh again hparse hfresh hagain
  have hreplay : ((do
      let texts ← ProjectionText.parse excludedProjection.encode
      texts.foldlM (addText orderSchema []) (← Projection.none orderSchema "User")).toOption.map
        fun again : Projection => again.isFetchRequested "order") = some false := by decide +kernel
  rw [hparse, ok_bind, hfresh, ok_bind, hagain] at hreplay
  simpa [Except.toOption] using hreplay

end Projection

end ResourceQuery
