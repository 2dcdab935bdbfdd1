import ResourceQuery.Proofs.NameMap
import ResourceQuery.Proofs.Path.Steps
/-!
# Rules of projections

The rules of a projection that was put together step by step stand in the order of their paths, and
the path of every rule leads to a property. So the rules below a path stand next to each other, and
an included path is entered from above (`includesBelow_of_included`).
-/

namespace ResourceQuery

namespace Projection

section Steps

variable {s : Schema} {p q : Projection} {path : String}

theorem includeAll_eq_ok_iff : p.includeAll = .ok q ↔
    p.includeByDefault = false ∧ p.rules = [] ∧ q = { p with includeByDefault := true } := by
  unfold includeAll
  constructor
  · intro h
    by_cases htwice : p.includeByDefault = true
    · rw [if_pos htwice] at h
      cases h
    · rw [if_neg htwice] at h
      by_cases hrules : (!p.rules.isEmpty) = true
      · rw [if_pos hrules] at h
        cases h
      · rw [if_neg hrules] at h
        cases h
        exact ⟨by simpa using htwice, by simpa using hrules, rfl⟩
  · rintro ⟨hfirst, hrules, rfl⟩
    simp [hfirst, hrules, pure, Except.pure]

/-- An object is not included itself. -/
theorem includePath_eq_ok_iff : p.includePath s path = .ok q ↔
    ∃ resolved property, Path.resolve s p.resourceType path = .ok resolved ∧
      resolved.terminal = .ok property ∧ property.isObject = false ∧
      q = { p with rules := p.rules.insert path true } := by
  simp only [includePath, bind_eq_ok_iff]
  constructor
  · rintro ⟨resolved, hresolved, property, hterminal, h⟩
    split at h
    · cases h
    · rename_i hobject
      cases h
      exact ⟨resolved, property, hresolved, hterminal, by simpa using hobject, rfl⟩
  · rintro ⟨resolved, property, hresolved, hterminal, hobject, rfl⟩
    refine ⟨resolved, hresolved, property, hterminal, ?_⟩
    rw [hobject]
    rfl

theorem excludePath_eq_ok_iff : p.excludePath s path = .ok q ↔
    ∃ resolved property, Path.resolve s p.resourceType path = .ok resolved ∧
      resolved.terminal = .ok property ∧ q = { p with rules := p.rules.insert path false } := by
  simp only [excludePath, bind_eq_ok_iff]
  constructor
  · rintro ⟨resolved, hresolved, property, hterminal, h⟩
    cases h
    exact ⟨resolved, property, hresolved, hterminal, rfl⟩
  · rintro ⟨resolved, property, hresolved, hterminal, rfl⟩
    exact ⟨resolved, hresolved, property, hterminal, rfl⟩

/-- The typed references on a path, with the types they point to. -/
def crossed (path : Path) : List (String × String) :=
  path.prefixes.filterMap fun (text, step) =>
    (step.property?.bind fetchTarget?).map fun target => (text, target)

/-- What is fetched is a typed reference, and all typed references on the way are fetched. -/
theorem fetchPath_eq_ok_iff : p.fetchPath s path = .ok q ↔
    ∃ resolved property, Path.resolve s p.resourceType path = .ok resolved ∧
      resolved.terminal = .ok property ∧ (fetchTarget? property).isSome ∧
      q = { p with
        rules := p.rules.insert path true
        fetched := (crossed resolved).foldl (fun m entry => m.insert entry.1 entry.2) p.fetched } := by
  simp only [fetchPath, bind_eq_ok_iff]
  constructor
  · rintro ⟨resolved, hresolved, property, hterminal, h⟩
    split at h
    · cases h
    · rename_i htarget
      cases h
      rw [Bool.not_eq_true, Option.isNone_eq_false_iff] at htarget
      exact ⟨resolved, property, hresolved, hterminal, htarget, rfl⟩
  · rintro ⟨resolved, property, hresolved, hterminal, htarget, rfl⟩
    refine ⟨resolved, hresolved, property, hterminal, ?_⟩
    rw [← Option.isNone_eq_false_iff] at htarget
    rw [htarget]
    rfl

/-- The path leads to an aggregate over the collection that the filter is based on. -/
def IsScope (s : Schema) (resourceType path : String) (filter : Filter) : Prop :=
  ∃ resolved property aggregate, Path.resolve s resourceType path = .ok resolved ∧
    resolved.checkEvaluable s = .ok () ∧ resolved.terminal = .ok property ∧
    property.aggregate? = some aggregate ∧ filter.resourceType = resourceType ∧
    filter.basePath.map Path.text = some (collectionPath resolved aggregate)

theorem scopePath_eq_ok_iff {key : String} {filter : Filter} :
    p.scopePath s path key filter = .ok q ↔ IsScope s p.resourceType path filter ∧
      q = { p with
        rules := p.rules.insert path true
        scopes := p.scopes.insert path ⟨key, filter⟩ } := by
  simp only [scopePath, bind_eq_ok_iff]
  constructor
  · rintro ⟨resolved, hresolved, _, hcheck, property, hterminal, h⟩
    split at h
    · rename_i aggregate haggregate
      split at h
      · cases h
      · rename_i hsame
        cases h
        rw [not_or, Decidable.not_not, Decidable.not_not] at hsame
        exact ⟨⟨resolved, property, aggregate, hresolved, hcheck, hterminal, haggregate, hsame⟩,
          rfl⟩
    · cases h
  · rintro ⟨⟨resolved, property, aggregate, hresolved, hcheck, hterminal, haggregate, hsame⟩, rfl⟩
    refine ⟨resolved, hresolved, (), hcheck, property, hterminal, ?_⟩
    simp only [haggregate]
    rw [if_neg (by simpa using hsame)]
    rfl

end Steps

/-- Projections over a resource type that are put together step by step. -/
inductive Reachable (s : Schema) (resourceType : String) : Projection → Prop
  | none {p : Projection} (h : Projection.none s resourceType = .ok p) :
    Reachable s resourceType p
  | includeAll {p q : Projection} (hp : Reachable s resourceType p) (h : p.includeAll = .ok q) :
    Reachable s resourceType q
  | includePath {p q : Projection} {path : String} (hp : Reachable s resourceType p)
    (h : p.includePath s path = .ok q) : Reachable s resourceType q
  | excludePath {p q : Projection} {path : String} (hp : Reachable s resourceType p)
    (h : p.excludePath s path = .ok q) : Reachable s resourceType q
  | fetchPath {p q : Projection} {path : String} (hp : Reachable s resourceType p)
    (h : p.fetchPath s path = .ok q) : Reachable s resourceType q
  | scopePath {p q : Projection} {path key : String} {filter : Filter}
    (hp : Reachable s resourceType p) (h : p.scopePath s path key filter = .ok q) :
    Reachable s resourceType q

/-- Rules stand in the order of their paths, and each path leads to a property. -/
structure HasRules (s : Schema) (resourceType : String) (p : Projection) : Prop where
  type : p.resourceType = resourceType
  sorted : p.rules.Sorted
  resolved : ∀ path rule, (path, rule) ∈ p.rules →
    ∃ resolved property, Path.resolve s resourceType path = .ok resolved ∧
      resolved.terminal = .ok property

theorem HasRules.insert {s : Schema} {resourceType path : String} {p q : Projection}
    {resolved : Path} {property : Property} (rule : Bool) (hp : p.HasRules s resourceType)
    (hresolved : Path.resolve s p.resourceType path = .ok resolved)
    (hterminal : resolved.terminal = .ok property) (htype : q.resourceType = p.resourceType)
    (hrules : q.rules = p.rules.insert path rule) : q.HasRules s resourceType where
  type := htype.trans hp.type
  sorted := by
    rw [hrules]
    exact NameMap.sorted_insert path rule hp.sorted
  resolved := by
    intro other otherRule hmem
    rw [hrules] at hmem
    rcases NameMap.mem_insert hmem with heq | hmem
    · obtain ⟨rfl, rfl⟩ := Prod.mk.inj heq
      exact ⟨resolved, property, hp.type ▸ hresolved, hterminal⟩
    · exact hp.resolved other otherRule hmem

theorem resource_name {s : Schema} {name : String} {c : Container} (h : s.resource name = .ok c) :
    c.name = name := by
  unfold Schema.resource at h
  obtain ⟨d, hd, h⟩ := bind_eq_ok_iff.1 h
  split at h
  · cases h
    simpa using List.find?_some (Schema.container_eq_ok_iff.1 hd)
  · cases h

theorem hasRules_of_reachable {s : Schema} {resourceType : String} {p : Projection}
    (h : Reachable s resourceType p) : p.HasRules s resourceType := by
  induction h with
  | none h =>
      simp only [Projection.none, bind_eq_ok_iff] at h
      obtain ⟨c, hc, h⟩ := h
      cases h
      exact ⟨resource_name hc, List.Pairwise.nil, by simp⟩
  | includeAll hp h ih =>
      obtain ⟨-, -, rfl⟩ := includeAll_eq_ok_iff.1 h
      exact ⟨ih.type, ih.sorted, ih.resolved⟩
  | includePath hp h ih =>
      obtain ⟨resolved, property, hresolved, hterminal, -, rfl⟩ := includePath_eq_ok_iff.1 h
      exact ih.insert true hresolved hterminal rfl rfl
  | excludePath hp h ih =>
      obtain ⟨resolved, property, hresolved, hterminal, rfl⟩ := excludePath_eq_ok_iff.1 h
      exact ih.insert false hresolved hterminal rfl rfl
  | fetchPath hp h ih =>
      obtain ⟨resolved, property, hresolved, hterminal, -, rfl⟩ := fetchPath_eq_ok_iff.1 h
      exact ih.insert true hresolved hterminal rfl rfl
  | scopePath hp h ih =>
      obtain ⟨⟨resolved, property, aggregate, hresolved, -, hterminal, -⟩, rfl⟩ :=
        scopePath_eq_ok_iff.1 h
      exact ih.insert true hresolved hterminal rfl rfl

/-- What is above an included path is entered. -/
theorem includesBelow_of_included {p : Projection} {path above : String}
    (hsorted : p.rules.Sorted) (hincluded : p.rules.find? path = some true)
    (habove : Text.startsWith path (above ++ ".") = true) : p.includesBelow above = true := by
  simp only [includesBelow, NameMap.scan_eq_filter hsorted, List.any_eq_true, List.mem_filter]
  exact ⟨(path, true), ⟨NameMap.mem_of_find? hincluded, habove⟩, rfl⟩

theorem isWritten_of_included {p : Projection} {path : String} (fetchedByDefault : Bool)
    (hincluded : p.rules.find? path = some true) : p.isWritten path fetchedByDefault = true := by
  unfold isWritten
  split
  · rfl
  · rw [hincluded]

/-- What is found below a path begins with it. -/
theorem exists_of_includesBelow {p : Projection} {path : String}
    (h : p.includesBelow path = true) :
    ∃ below, Text.startsWith below (path ++ ".") = true ∧ (below, true) ∈ p.rules := by
  unfold includesBelow at h
  obtain ⟨⟨below, rule⟩, hmem, hrule⟩ := List.any_eq_true.1 h
  have hall := List.all_takeWhile (p := fun entry : String × Bool =>
    Text.startsWith entry.1 (path ++ ".")) (l := p.rules.dropWhile fun entry =>
      decide (entry.1 < path ++ "."))
  obtain rfl : rule = true := hrule
  exact ⟨below, List.all_eq_true.1 hall (below, true) hmem,
    (List.dropWhile_sublist _).subset ((List.takeWhile_sublist _).subset hmem)⟩

/-- An excluded path is written only if something below it is included. -/
theorem isWritten_of_excluded {p : Projection} {path : String} (fetchedByDefault : Bool)
    (hexcluded : p.rules.find? path = some false)
    (hbelow : ∀ below, Text.startsWith below (path ++ ".") = true →
      (below, true) ∉ p.rules) : p.isWritten path fetchedByDefault = false := by
  have hnone : p.includesBelow path = false := by
    rw [Bool.eq_false_iff]
    intro h
    obtain ⟨below, hstarts, hmem⟩ := exists_of_includesBelow h
    exact hbelow below hstarts hmem
  unfold isWritten
  rw [hnone, hexcluded]
  rfl

end Projection

end ResourceQuery
