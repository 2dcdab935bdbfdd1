import ResourceQuery.Proofs.Compile.Lists
import ResourceQuery.Proofs.Projection.Rules
/-!
# Projections written and compiled again

What compilation leaves of a projection is enough to compile its text once more, to one that is
written as the same text. Every rule is put in again as it is written, in the order of the paths, so
no rule is put in place of another. A fetched path fetches the references on its way again, but no
path that was not fetched.
-/

namespace ResourceQuery

namespace Projection

variable {s : Schema} {filters others : NameMap Filter} {resourceType : String}

/-- A typed reference. -/
def isFetchable (p : Property) : Bool := (fetchTarget? p).isSome

theorem keys_crossed (path : Path) : NameMap.keys (crossed path) = path.passing isFetchable :=
  keys_filterMap_prefixes path fetchTarget? id

theorem mem_crossed {path : Path} {front target : String} :
    (front, target) ∈ crossed path ↔ ∃ step p, (front, step) ∈ path.prefixes ∧
      step.property? = some p ∧ fetchTarget? p = some target :=
  (mem_filterMap_prefixes path fetchTarget? id).trans (by simp only [Option.map_id_fun, id_eq])

/-- Every rule can be put in again as it is written. -/
structure Compiled (s : Schema) (filters : NameMap Filter) (resourceType : String)
    (p : Projection) : Prop extends HasRules s resourceType p where
  dotted : ∀ path rule, (path, rule) ∈ p.rules → Text.IsDotted path
  included : ∀ path, (path, true) ∈ p.rules →
    (p.scopes.find? path).isSome ∨ p.fetched.contains path = true ∨
      ∃ resolved property, Path.resolve s resourceType path = .ok resolved ∧
        resolved.terminal = .ok property ∧ property.isObject = false
  closed : ClosedPaths s resourceType isFetchable p.fetched
  scopes : ∀ path scope, p.scopes.find? path = some scope →
    Text.isIdentifier scope.key.toList = true ∧ filters.find? scope.key = some scope.filter ∧
      IsScope s resourceType path scope.filter

theorem compiled_empty : Compiled s filters resourceType ⟨resourceType, false, [], [], []⟩ where
  type := rfl
  sorted := List.Pairwise.nil
  resolved := by simp
  dotted := by simp
  included := by simp
  closed := ClosedPaths.nil
  scopes := by simp

/-- A rule is put in on top of the others, and nothing that they rest on is lost. -/
theorem Compiled.insert {p q : Projection} {path : String} {rule : Bool} {resolved : Path}
    {property : Property} (h : p.Compiled s filters resourceType) (hpath : Text.IsDotted path)
    (hresolved : Path.resolve s p.resourceType path = .ok resolved)
    (hterminal : resolved.terminal = .ok property) (htype : q.resourceType = p.resourceType)
    (hrules : q.rules = p.rules.insert path rule)
    (hrule : rule = true → (q.scopes.find? path).isSome ∨ q.fetched.contains path = true ∨
      property.isObject = false)
    (hfetched : ∀ other, p.fetched.contains other = true → q.fetched.contains other = true)
    (hclosed : ClosedPaths s resourceType isFetchable q.fetched)
    (hscopes : ∀ other, (p.scopes.find? other).isSome → (q.scopes.find? other).isSome)
    (hscoped : ∀ path scope, q.scopes.find? path = some scope →
      Text.isIdentifier scope.key.toList = true ∧ filters.find? scope.key = some scope.filter ∧
        IsScope s resourceType path scope.filter) :
    q.Compiled s filters resourceType where
  toHasRules := h.toHasRules.insert rule hresolved hterminal htype hrules
  dotted := by
    intro other otherRule hmem
    rw [hrules] at hmem
    rcases NameMap.mem_insert hmem with heq | hmem
    · cases heq
      exact hpath
    · exact h.dotted other otherRule hmem
  included := by
    intro other hmem
    rw [hrules] at hmem
    rcases NameMap.mem_insert hmem with heq | hmem
    · cases heq
      rw [h.type] at hresolved
      exact (hrule rfl).imp_right (Or.imp_right fun hobject =>
        ⟨resolved, property, hresolved, hterminal, hobject⟩)
    · exact (h.included other hmem).imp (hscopes other) (Or.imp_left (hfetched other))
  closed := hclosed
  scopes := hscoped

theorem Compiled.addText {p q : Projection} {text : ProjectionText}
    (h : p.Compiled s filters resourceType) (htext : text.Readable)
    (hadd : p.addText s filters text = .ok q) : q.Compiled s filters resourceType := by
  cases text with
  | includeAll position =>
      obtain ⟨-, -, rfl⟩ := includeAll_eq_ok_iff.1 (located_eq_ok_iff.1 hadd)
      exact ⟨⟨h.type, h.sorted, h.resolved⟩, h.dotted, h.included, h.closed, h.scopes⟩
  | includePath path =>
      obtain ⟨resolved, property, hresolved, hterminal, hobject, rfl⟩ :=
        includePath_eq_ok_iff.1 (located_eq_ok_iff.1 hadd)
      exact h.insert htext hresolved hterminal rfl rfl (fun _ => .inr (.inr hobject))
        (fun _ => id) h.closed (fun _ => id) h.scopes
  | excludePath path =>
      obtain ⟨resolved, property, hresolved, hterminal, rfl⟩ :=
        excludePath_eq_ok_iff.1 (located_eq_ok_iff.1 hadd)
      exact h.insert htext hresolved hterminal rfl rfl (fun hrule => by cases hrule)
        (fun _ => id) h.closed (fun _ => id) h.scopes
  | fetchPath path =>
      obtain ⟨resolved, property, hresolved, hterminal, htarget, rfl⟩ :=
        fetchPath_eq_ok_iff.1 (located_eq_ok_iff.1 hadd)
      refine h.insert htext hresolved hterminal rfl rfl (fun _ => .inr (.inl ?_)) ?_ ?_
        (fun _ => id) h.scopes
      · rw [NameMap.contains_foldl_insert, keys_crossed]
        exact .inl (Path.self_mem_passing hresolved hterminal htarget)
      · exact fun other hother => (NameMap.contains_foldl_insert _ _).2 (.inr hother)
      · exact h.closed.insert (h.type ▸ hresolved) (keys_crossed resolved)
  | scopePath path key =>
      obtain ⟨f, hf, hadd⟩ := bind_eq_ok_iff.1 hadd
      obtain ⟨hscope, rfl⟩ := scopePath_eq_ok_iff.1 (located_eq_ok_iff.1 hadd)
      obtain ⟨resolved, property, aggregate, hresolved, -, hterminal, -⟩ := id hscope
      refine h.insert htext.1 hresolved hterminal rfl rfl (fun _ => .inl ?_) (fun _ => id) h.closed
        ?_ ?_
      · rw [NameMap.find?_insert_self]
        rfl
      · intro other hother
        rw [NameMap.find?_insert]
        split
        · rfl
        · exact hother
      · intro other scope hscope'
        rw [NameMap.find?_insert] at hscope'
        split at hscope'
        · rename_i heq
          cases hscope'
          subst heq
          exact ⟨htext.2, additionalFilter_eq_ok_iff.1 hf, h.type ▸ hscope⟩
        · exact h.scopes other scope hscope'

/-- The projection that is compiled of parameter values. -/
theorem compiled_of_values {values : List String} {p : Projection}
    (h : values.foldlM (compile s filters) ⟨resourceType, false, [], [], []⟩ = .ok p) :
    p.Compiled s filters resourceType := by
  refine foldlM_invariant (P := fun p => p.Compiled s filters resourceType) h compiled_empty ?_
  intro p value q _ hp hcompile
  obtain ⟨texts, htexts, hadd⟩ := bind_eq_ok_iff.1 hcompile
  refine foldlM_invariant (P := fun p => p.Compiled s filters resourceType) hadd hp ?_
  intro p text q htext hp hadd
  exact hp.addText (ProjectionText.readable_of_parse htexts text htext) hadd

/-- The element that a rule is written as, as it is read. -/
def ruleText (p : Projection) (path : PathText) (rule : Bool) : ProjectionText :=
  if !rule then .excludePath path
  else match p.scopes.find? path.path with
    | some scope => .scopePath path scope.key
    | Option.none => if p.fetched.contains path.path then .fetchPath path else .includePath path

/-- The elements of a projection parameter: the star, which is no rule, and the rules. -/
def items (p : Projection) : List (Option (String × Bool)) :=
  (if p.includeByDefault then [Option.none] else []) ++ p.rules.map some

def encodeItem (p : Projection) : Option (String × Bool) → String
  | some rule => p.encodeRule rule.1 rule.2
  | Option.none => "*"

theorem encode_eq (p : Projection) : p.encode = Text.join "," (p.items.map p.encodeItem) := by
  rw [encode, items, List.map_append, List.map_map]
  cases p.includeByDefault <;> rfl

theorem rules_of_items (p : Projection) : p.items.filterMap id = p.rules := by
  rw [items, List.filterMap_append, List.filterMap_map]
  cases p.includeByDefault <;> simp

/-- An element of a projection parameter says what the item is. -/
def Restates (p : Projection) : Option (String × Bool) → ProjectionText → Prop
  | some rule, text => ∃ path : PathText, path.path = rule.1 ∧ text = p.ruleText path rule.2
  | Option.none, text => ∃ position, text = .includeAll position

theorem Compiled.takes_rule {p : Projection} (h : p.Compiled s filters resourceType)
    {rule : String × Bool} (hrule : rule ∈ p.rules) {rest : List Char}
    (hrest : Reader.ElementEnds rest) :
    ProjectionText.reader.Takes (p.encodeRule rule.1 rule.2).toList rest
      (p.Restates (some rule)) := by
  obtain ⟨path, rule⟩ := rule
  have hpath := h.dotted path rule hrule
  cases rule with
  | false =>
      refine (ProjectionText.takes_exclude hpath hrest).mono ?_
      rintro _ ⟨written, rfl, hwritten⟩
      exact ⟨written, hwritten, rfl⟩
  | true =>
      cases hscope : p.scopes.find? path with
      | some scope =>
          simp only [encodeRule, hscope]
          refine (ProjectionText.takes_scope hpath (h.scopes path scope hscope).1 hrest).mono ?_
          rintro _ ⟨written, rfl, hwritten⟩
          refine ⟨written, hwritten, ?_⟩
          simp [ruleText, hwritten, hscope]
      | none =>
          by_cases hfetched : p.fetched.contains path = true
          · simp only [encodeRule, hscope, hfetched]
            refine (ProjectionText.takes_fetch hpath rest).mono ?_
            rintro _ ⟨written, rfl, hwritten⟩
            refine ⟨written, hwritten, ?_⟩
            simp [ruleText, hwritten, hscope, hfetched]
          · simp only [encodeRule, hscope, hfetched]
            refine (ProjectionText.takes_include hpath hrest).mono ?_
            rintro _ ⟨written, rfl, hwritten⟩
            refine ⟨written, hwritten, ?_⟩
            simp [ruleText, hwritten, hscope, hfetched]

/-- A compiled projection that is not empty is read item by item. -/
theorem Compiled.parse_encode {p : Projection} (h : p.Compiled s filters resourceType)
    (hne : p.isEmpty = false) : ∃ texts, ProjectionText.parse p.encode = .ok texts ∧
      List.Forall₂ p.Restates p.items texts := by
  have hitems : p.items ≠ [] := by
    intro hnone
    rw [items, List.append_eq_nil_iff, List.map_eq_nil_iff] at hnone
    rw [isEmpty, hnone.2] at hne
    cases hall : p.includeByDefault with
    | true => simp [hall] at hnone
    | false => simp [hall] at hne
  rw [encode_eq]
  refine Reader.readAll_separated "projection" hitems fun item hitem rest hrest => ?_
  cases item with
  | none => exact ProjectionText.takes_all rest
  | some rule =>
      have hrule : rule ∈ p.items.filterMap id := List.mem_filterMap.2 ⟨_, hitem, rfl⟩
      rw [rules_of_items] at hrule
      exact h.takes_rule hrule hrest

/-- The keys of the filters that a projection is written with. -/
def scopeKeys (p : Projection) : List String :=
  p.rules.filterMap fun rule =>
    if rule.2 then (p.scopes.find? rule.1).map AggregateScope.key else Option.none

/-- The keys that the text of a projection refers to are those of its scopes. -/
theorem projectionKeys_of_restates {p : Projection} {texts : List ProjectionText}
    (h : List.Forall₂ p.Restates p.items texts) :
    FilterParameters.projectionKeys texts = p.scopeKeys := by
  rw [FilterParameters.projectionKeys, scopeKeys, ← rules_of_items, List.filterMap_filterMap]
  refine filterMap_of_forall₂ h fun item text hrestates => ?_
  cases item with
  | none =>
      obtain ⟨position, rfl⟩ := hrestates
      rfl
  | some rule =>
      obtain ⟨path, hpath, rfl⟩ := hrestates
      obtain ⟨other, rule⟩ := rule
      simp only at hpath
      subst hpath
      cases rule with
      | false => rfl
      | true =>
          cases hscope : p.scopes.find? path.path with
          | some scope => simp [ruleText, hscope]
          | none => by_cases hfetched : p.fetched.contains path.path = true <;>
              simp [ruleText, hscope, hfetched]

/-- What the items read so far make of a projection that is written with them. -/
structure Reads (p : Projection) (front : List (Option (String × Bool))) (other : Projection) :
    Prop where
  type : other.resourceType = p.resourceType
  all : other.includeByDefault = true ↔ Option.none ∈ front
  rules : other.rules = front.filterMap id
  fetched : ∀ path, other.fetched.contains path = true → p.fetched.contains path = true
  scopes : ∀ path scope, other.scopes.find? path = some scope →
    (p.scopes.find? path).map AggregateScope.key = some scope.key
  written : ∀ path, some (path, true) ∈ front → (p.scopes.find? path).isSome →
    (other.scopes.find? path).isSome
  kept : ∀ path, some (path, true) ∈ front → p.scopes.find? path = Option.none →
    p.fetched.contains path = true → other.fetched.contains path = true

/-- A rule behind those that were read is put in behind them. -/
theorem Reads.snoc {p other next : Projection} {front rest : List (Option (String × Bool))}
    {path : String} {rule : Bool} (h : p.Reads front other) (hsorted : p.rules.Sorted)
    (hitems : p.items = front ++ some (path, rule) :: rest)
    (htype : next.resourceType = other.resourceType)
    (hall : next.includeByDefault = other.includeByDefault)
    (hrules : next.rules = other.rules.insert path rule)
    (hfetched : ∀ path, next.fetched.contains path = true → p.fetched.contains path = true)
    (hscopes : ∀ path scope, next.scopes.find? path = some scope →
      (p.scopes.find? path).map AggregateScope.key = some scope.key)
    (hgrown : ∀ path, other.fetched.contains path = true → next.fetched.contains path = true)
    (hwritten : ∀ path, (other.scopes.find? path).isSome → (next.scopes.find? path).isSome)
    (hown : rule = true → (p.scopes.find? path).isSome → (next.scopes.find? path).isSome)
    (hkept : rule = true → p.scopes.find? path = Option.none →
      p.fetched.contains path = true → next.fetched.contains path = true) :
    p.Reads (front ++ [some (path, rule)]) next where
  type := htype.trans h.type
  all := by
    rw [hall, h.all]
    simp
  rules := by
    have hsplit : p.rules = front.filterMap id ++ (path, rule) :: rest.filterMap id := by
      rw [← rules_of_items, hitems, List.filterMap_append]
      rfl
    rw [hrules, h.rules, List.filterMap_append]
    exact NameMap.insert_last (hsplit ▸ hsorted)
  fetched := hfetched
  scopes := hscopes
  written := by
    intro other hmem hsome
    rcases List.mem_append.1 hmem with hmem | hmem
    · exact hwritten other (h.written other hmem hsome)
    · cases List.mem_singleton.1 hmem
      exact hown rfl hsome
  kept := by
    intro other hmem hnone hcontains
    rcases List.mem_append.1 hmem with hmem | hmem
    · exact hgrown other (h.kept other hmem hnone hcontains)
    · cases List.mem_singleton.1 hmem
      exact hkept rfl hnone hcontains

theorem IsScope.congr {path : String} {f g : Filter} (h : IsScope s resourceType path f)
    (htype : g.resourceType = f.resourceType) (hbase : g.basePath = f.basePath) :
    IsScope s resourceType path g := by
  obtain ⟨resolved, property, aggregate, hresolved, hcheck, hterminal, haggregate, hsame⟩ := h
  rw [← htype, ← hbase] at hsame
  exact ⟨resolved, property, aggregate, hresolved, hcheck, hterminal, haggregate, hsame⟩

/-- The star comes first. -/
theorem front_of_items {p : Projection} {front rest : List (Option (String × Bool))}
    (h : p.items = front ++ Option.none :: rest) : front = [] := by
  have hrules : ∀ front, p.rules.map some ≠ front ++ Option.none :: rest := by
    intro front heq
    have hmem : Option.none ∈ p.rules.map some := by simp [heq]
    simp at hmem
  rw [items] at h
  cases hall : p.includeByDefault with
  | false =>
      rw [hall] at h
      exact absurd h (hrules front)
  | true =>
      rw [hall] at h
      cases front with
      | nil => rfl
      | cons item front => exact absurd (List.cons.inj h).2 (hrules front)

section Again

variable {p other : Projection} {front rest : List (Option (String × Bool))} {path : String}

theorem Compiled.excludePath_again (h : p.Compiled s filters resourceType)
    (hother : p.Reads front other) (hitems : p.items = front ++ some (path, false) :: rest)
    (hmem : (path, false) ∈ p.rules) :
    ∃ next, other.excludePath s path = .ok next ∧ p.Reads (front ++ [some (path, false)]) next := by
  obtain ⟨resolved, property, hresolved, hterminal⟩ := h.resolved path false hmem
  have htype : other.resourceType = resourceType := hother.type.trans h.type
  refine ⟨{ other with rules := other.rules.insert path false }, excludePath_eq_ok_iff.2
    ⟨resolved, property, htype ▸ hresolved, hterminal, rfl⟩, ?_⟩
  exact hother.snoc h.sorted hitems rfl rfl rfl hother.fetched hother.scopes (fun _ => id)
    (fun _ => id) (fun heq => by cases heq) (fun heq => by cases heq)

theorem Compiled.scopePath_again {scope : AggregateScope} {g : Filter}
    (h : p.Compiled s filters resourceType) (hother : p.Reads front other)
    (hitems : p.items = front ++ some (path, true) :: rest)
    (hscope : p.scopes.find? path = some scope) (htype : g.resourceType = scope.filter.resourceType)
    (hbase : g.basePath = scope.filter.basePath) :
    ∃ next, other.scopePath s path scope.key g = .ok next ∧
      p.Reads (front ++ [some (path, true)]) next := by
  have hown : other.resourceType = resourceType := hother.type.trans h.type
  refine ⟨{ other with
      rules := other.rules.insert path true
      scopes := other.scopes.insert path ⟨scope.key, g⟩ }, scopePath_eq_ok_iff.2
    ⟨hown ▸ (h.scopes path scope hscope).2.2.congr htype hbase, rfl⟩, ?_⟩
  refine hother.snoc h.sorted hitems rfl rfl rfl hother.fetched ?_ (fun _ => id) ?_ ?_ ?_
  · intro inner scope' hinner
    rw [NameMap.find?_insert] at hinner
    split at hinner
    · rename_i heq
      cases hinner
      rw [← heq, hscope]
      rfl
    · exact hother.scopes inner scope' hinner
  · intro inner hinner
    rw [NameMap.find?_insert]
    split
    · rfl
    · exact hinner
  · intro _ _
    rw [NameMap.find?_insert_self]
    rfl
  · intro _ hnone
    rw [hscope] at hnone
    cases hnone

theorem Compiled.fetchPath_again (h : p.Compiled s filters resourceType)
    (hother : p.Reads front other) (hitems : p.items = front ++ some (path, true) :: rest)
    (hscope : p.scopes.find? path = Option.none) (hfetched : p.fetched.contains path = true) :
    ∃ next, other.fetchPath s path = .ok next ∧ p.Reads (front ++ [some (path, true)]) next := by
  have htype : other.resourceType = resourceType := hother.type.trans h.type
  obtain ⟨resolved, property, hresolved, hterminal, htarget, hclosed⟩ := h.closed path hfetched
  refine ⟨{ other with
      rules := other.rules.insert path true
      fetched := (crossed resolved).foldl (fun m entry => m.insert entry.1 entry.2)
        other.fetched }, fetchPath_eq_ok_iff.2
    ⟨resolved, property, htype ▸ hresolved, hterminal, htarget, rfl⟩, ?_⟩
  refine hother.snoc h.sorted hitems rfl rfl rfl ?_ hother.scopes ?_ (fun _ => id) ?_ ?_
  · intro inner hinner
    rw [NameMap.contains_foldl_insert, keys_crossed] at hinner
    exact hinner.elim (hclosed inner) (hother.fetched inner)
  · intro inner hinner
    exact (NameMap.contains_foldl_insert _ _).2 (.inr hinner)
  · intro _ hsome
    rw [hscope] at hsome
    cases hsome
  · intro _ _ _
    rw [NameMap.contains_foldl_insert, keys_crossed]
    exact .inl (Path.self_mem_passing hresolved hterminal htarget)

theorem Compiled.includePath_again (h : p.Compiled s filters resourceType)
    (hother : p.Reads front other) (hitems : p.items = front ++ some (path, true) :: rest)
    (hmem : (path, true) ∈ p.rules) (hscope : p.scopes.find? path = Option.none)
    (hfetched : ¬p.fetched.contains path = true) :
    ∃ next, other.includePath s path = .ok next ∧ p.Reads (front ++ [some (path, true)]) next := by
  have htype : other.resourceType = resourceType := hother.type.trans h.type
  have hplain := ((h.included path hmem).resolve_left (by simp [hscope])).resolve_left hfetched
  obtain ⟨resolved, property, hresolved, hterminal, hobject⟩ := hplain
  refine ⟨{ other with rules := other.rules.insert path true }, includePath_eq_ok_iff.2
    ⟨resolved, property, htype ▸ hresolved, hterminal, hobject, rfl⟩, ?_⟩
  refine hother.snoc h.sorted hitems rfl rfl rfl hother.fetched hother.scopes (fun _ => id)
    (fun _ => id) ?_ fun _ _ hcontains => absurd hcontains hfetched
  intro _ hsome
  rw [hscope] at hsome
  cases hsome

/-- An item that is read is put in, and the filter of a scope may be another one. -/
theorem Compiled.addText_restates {item : Option (String × Bool)} {text : ProjectionText}
    (h : p.Compiled s filters resourceType) (hothers : Replaces p.scopeKeys filters others)
    (hitems : p.items = front ++ item :: rest) (hrestates : p.Restates item text)
    (hother : p.Reads front other) :
    ∃ next, other.addText s others text = .ok next ∧ p.Reads (front ++ [item]) next := by
  cases item with
  | none =>
      obtain ⟨position, rfl⟩ := hrestates
      obtain rfl := front_of_items hitems
      have hall : other.includeByDefault = false := by
        rw [← Bool.not_eq_true, hother.all]
        simp
      refine ⟨{ other with includeByDefault := true }, ?_, hother.type, by simp, hother.rules,
        hother.fetched, hother.scopes, by simp, by simp⟩
      exact located_eq_ok_iff.2 (includeAll_eq_ok_iff.2 ⟨hall, hother.rules, rfl⟩)
  | some rule =>
      obtain ⟨_, rule⟩ := rule
      obtain ⟨path, rfl, rfl⟩ := hrestates
      have hmem : (path.path, rule) ∈ p.rules := by
        rw [← rules_of_items, hitems]
        simp
      cases rule with
      | false =>
          obtain ⟨next, hnext, hreads⟩ := h.excludePath_again hother hitems hmem
          exact ⟨next, located_eq_ok_iff.2 hnext, hreads⟩
      | true =>
          cases hscope : p.scopes.find? path.path with
          | some scope =>
              have hkey : scope.key ∈ p.scopeKeys :=
                List.mem_filterMap.2 ⟨_, hmem, by simp [hscope]⟩
              obtain ⟨g, hg, htype, hbase⟩ := hothers scope.key hkey _
                (h.scopes _ scope hscope).2.1
              obtain ⟨next, hnext, hreads⟩ := h.scopePath_again hother hitems hscope htype hbase
              refine ⟨next, ?_, hreads⟩
              simp only [ruleText, hscope, Bool.not_true, Bool.false_eq_true, if_false,
                Projection.addText, additionalFilter_eq_ok_iff.2 hg, ok_bind, hnext, located]
          | none =>
              by_cases hfetched : p.fetched.contains path.path = true
              · obtain ⟨next, hnext, hreads⟩ := h.fetchPath_again hother hitems hscope hfetched
                refine ⟨next, ?_, hreads⟩
                simp only [ruleText, hscope, hfetched, Bool.not_true, Bool.false_eq_true,
                  if_false, if_true, Projection.addText, hnext, located]
              · obtain ⟨next, hnext, hreads⟩ :=
                  h.includePath_again hother hitems hmem hscope hfetched
                refine ⟨next, ?_, hreads⟩
                simp only [ruleText, hscope, hfetched, Bool.not_true, Bool.false_eq_true,
                  if_false, Projection.addText, hnext, located]

/-- A projection of which all items were read is written as them. -/
theorem Reads.encode_eq (h : p.Reads p.items other) :
    other.isEmpty = p.isEmpty ∧ other.encode = p.encode := by
  have hrules : other.rules = p.rules := h.rules.trans p.rules_of_items
  have hall : other.includeByDefault = p.includeByDefault := by
    rw [Bool.eq_iff_iff, h.all, items]
    cases p.includeByDefault <;> simp
  have hencode : ∀ rule ∈ p.rules, other.encodeRule rule.1 rule.2 = p.encodeRule rule.1 rule.2 := by
    rintro ⟨path, rule⟩ hmem
    cases rule with
    | false => rfl
    | true =>
        have hitem : some (path, true) ∈ p.items :=
          List.mem_append_right _ (List.mem_map_of_mem hmem)
        simp only [encodeRule]
        cases hscope : p.scopes.find? path with
        | some scope =>
            have hsome := h.written path hitem (by rw [hscope]; rfl)
            obtain ⟨scope', hscope'⟩ := Option.isSome_iff_exists.1 hsome
            have hkey := h.scopes path scope' hscope'
            rw [hscope, Option.map_some, Option.some.injEq] at hkey
            simp only [hscope', hkey]
        | none =>
            have hnone : other.scopes.find? path = Option.none := by
              cases hscope' : other.scopes.find? path with
              | none => rfl
              | some scope' =>
                  have hkey := h.scopes path scope' hscope'
                  rw [hscope] at hkey
                  cases hkey
            have hfetched : other.fetched.contains path = p.fetched.contains path := by
              rw [Bool.eq_iff_iff]
              exact ⟨h.fetched path, h.kept path hitem hscope⟩
            simp only [hnone, hfetched]
  refine ⟨by rw [isEmpty, isEmpty, hall, hrules], ?_⟩
  rw [encode, encode, hall, hrules]
  exact congrArg (fun texts => Text.join "," (_ ++ texts)) (List.map_congr_left hencode)

end Again

/-- The values of the projection parameter. -/
def texts (p : Projection) : List String := if p.isEmpty then [] else [p.encode]

/-- A compiled projection is written with the keys of its scopes. -/
theorem Compiled.referred {p : Projection} (h : p.Compiled s filters resourceType) :
    ∃ elements, p.texts.mapM ProjectionText.parse = .ok elements ∧
      elements.flatMap FilterParameters.projectionKeys = p.scopeKeys := by
  rw [texts]
  cases hempty : p.isEmpty with
  | true =>
      have hnone : p.includeByDefault = false ∧ p.rules = [] := by
        simpa [isEmpty] using hempty
      exact ⟨[], rfl, by simp [scopeKeys, hnone.2]⟩
  | false =>
      obtain ⟨elements, hparse, hrestates⟩ := h.parse_encode hempty
      refine ⟨[elements], ?_, by simp [projectionKeys_of_restates hrestates]⟩
      rw [mapM_eq_ok_iff]
      simp [hparse]

/-- A compiled projection is compiled again of its text, to one that is written as the same. -/
theorem Compiled.recovers {p : Projection} (h : p.Compiled s filters resourceType)
    (hothers : Replaces p.scopeKeys filters others) :
    ∃ again, p.texts.foldlM (compile s others) ⟨resourceType, false, [], [], []⟩ = .ok again ∧
      again.isEmpty = p.isEmpty ∧ again.encode = p.encode := by
  rw [texts]
  have hstart : p.Reads [] ⟨resourceType, false, [], [], []⟩ :=
    ⟨h.type.symm, by simp, rfl, by simp [NameMap.contains], by simp, by simp, by simp⟩
  cases hempty : p.isEmpty with
  | true =>
      have hnone : p.includeByDefault = false ∧ p.rules = [] := by
        simpa [isEmpty] using hempty
      have hitems : p.items = [] := by simp [items, hnone]
      obtain ⟨hagain, hencode⟩ := Reads.encode_eq (hitems ▸ hstart)
      exact ⟨_, rfl, rfl, hencode⟩
  | false =>
      obtain ⟨texts, hparse, hrestates⟩ := h.parse_encode hempty
      have hplan : ∃ again, texts.foldlM (Projection.addText s others)
          ⟨resourceType, false, [], [], []⟩ = .ok again ∧ p.Reads ([] ++ p.items) again := by
        refine foldlM_follows (fun front other => p.Reads front other) ?_ hrestates hstart
        intro front item rest text other heq hitem hother
        exact h.addText_restates hothers heq hitem hother
      obtain ⟨again, hagain, hreads⟩ := hplan
      obtain ⟨hsame, hencode⟩ := Reads.encode_eq hreads
      refine ⟨again, ?_, hsame.trans hempty, hencode⟩
      simp only [Bool.false_eq_true, if_false]
      rw [foldlM_singleton, compile, hparse, ok_bind, hagain]

end Projection

end ResourceQuery
