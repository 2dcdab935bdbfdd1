import ResourceQuery.Compile.FilterParameters
import ResourceQuery.Proofs.Outcome
import ResourceQuery.Proofs.Parameters
import ResourceQuery.Proofs.Query.FilterParameter
/-!
# Parameters sorted under their filters

Every addressed parameter is sorted under the key of its filter, as an entry or as the base path,
and nothing else is.
-/

namespace ResourceQuery

namespace FilterParameters

/-- The entry that a parameter about a group is. -/
def entryFor? (name : String) (values : List String) : FilterParameter → Option FilterEntry
  | .junction group => some ⟨name, group, .junction, values⟩
  | .condition group text => some ⟨name, group, .condition text, values⟩
  | .basePath _ => none

theorem singleValue_eq_ok_iff {name value : String} {values : List String} :
    singleValue name values = .ok value ↔ values = [value] := by
  unfold singleValue
  split
  · simp
  · rename_i hmany
    simp only [reduceCtorEq, false_iff]
    exact hmany value

theorem of_insert (groups : NameMap FilterParameters) (key name : String) (q : FilterParameters) :
    of (groups.insert key q) name = if key = name then q else of groups name := by
  unfold of
  rw [NameMap.find?_insert]
  split <;> rfl

/-- The entry that a parameter is in the filter with a key. -/
def entryUnder? (key : String) (parameter : String × List String) : Option FilterEntry :=
  (FilterParameter.parse parameter.1).toOption.bind fun p =>
    if p.key = key then entryFor? parameter.1 parameter.2 p else none

/-- An entry has the name, the values, the group and the content of its parameter. -/
theorem entryFor?_eq_some_iff {name : String} {values : List String} {p : FilterParameter}
    {e : FilterEntry} : entryFor? name values p = some e ↔ e.name = name ∧ e.values = values ∧
      ((p = .junction e.group ∧ e.content = .junction) ∨
        ∃ text, p = .condition e.group text ∧ e.content = .condition text) := by
  obtain ⟨own, group, content, given⟩ := e
  cases p with
  | junction other => grind [entryFor?]
  | basePath key => simp [entryFor?]
  | condition other text => grind [entryFor?]

theorem exists_entryFor? (name : String) (values : List String) {p : FilterParameter}
    (hp : ∀ key, p ≠ .basePath key) : ∃ e, entryFor? name values p = some e := by
  cases p with
  | junction group => exact ⟨_, rfl⟩
  | basePath key => exact absurd rfl (hp key)
  | condition group text => exact ⟨_, rfl⟩

/-- What a parameter adds: a base path or an entry, under the key of its filter. -/
structure Adds (groups groups' : NameMap FilterParameters) (name : String) (values : List String)
    (p : FilterParameter) : Prop where
  parsed : FilterParameter.parse name = .ok p
  sorted : groups.Sorted → groups'.Sorted
  entries : ∀ key, (of groups' key).entries =
    (of groups key).entries ++ (entryUnder? key (name, values)).toList
  basePath : ∀ key, (of groups' key).basePath =
    if p = .basePath key then values.head? else (of groups key).basePath
  single : ∀ key, p = .basePath key → ∃ path, values = [path]
  keys : ∀ key, (groups'.find? key).isSome = true ↔ p.key = key ∨ (groups.find? key).isSome = true

theorem adds_entry (groups : NameMap FilterParameters) {name : String} {values : List String}
    {p : FilterParameter} (hparse : FilterParameter.parse name = .ok p) {e : FilterEntry}
    (hentry : entryFor? name values p = some e) :
    Adds groups (addEntry groups e) name values p := by
  have hplain : ∀ key, p ≠ .basePath key := by
    rintro key rfl
    cases hentry
  have hroot : e.group.root = p.key := by
    obtain ⟨-, -, ⟨rfl, -⟩ | ⟨text, rfl, -⟩⟩ := entryFor?_eq_some_iff.1 hentry <;> rfl
  have hunder : ∀ key, entryUnder? key (name, values) = if p.key = key then some e else none := by
    intro key
    simp only [entryUnder?, hparse, Except.toOption, Option.bind_some, hentry]
  rw [addEntry, hroot]
  refine ⟨hparse, NameMap.sorted_insert _ _, fun key => ?_, fun key => ?_,
    fun key heq => absurd heq (hplain key), fun key => NameMap.isSome_find?_insert _ key _ _⟩
  · rw [of_insert, hunder]
    by_cases hkey : p.key = key
    · rw [if_pos hkey, if_pos hkey, hkey]
      rfl
    · rw [if_neg hkey, if_neg hkey, Option.toList_none, List.append_nil]
  · rw [of_insert, if_neg (hplain key)]
    by_cases hkey : p.key = key
    · rw [if_pos hkey, hkey]
    · rw [if_neg hkey]

theorem adds_basePath (groups : NameMap FilterParameters) {name key path : String}
    (hparse : FilterParameter.parse name = .ok (.basePath key)) :
    Adds groups (groups.insert key { of groups key with basePath := some path }) name [path]
      (.basePath key) := by
  refine ⟨hparse, NameMap.sorted_insert _ _, fun other => ?_, fun other => ?_,
    fun _ _ => ⟨path, rfl⟩, fun key => NameMap.isSome_find?_insert _ key _ _⟩
  · have hnone : entryUnder? other (name, [path]) = none := by
      simp [entryUnder?, hparse, Except.toOption, entryFor?]
    rw [of_insert, hnone, Option.toList_none, List.append_nil]
    by_cases hkey : key = other
    · rw [if_pos hkey, hkey]
    · rw [if_neg hkey]
  · rw [of_insert]
    by_cases hkey : key = other
    · rw [if_pos hkey, if_pos (by rw [hkey])]
      rfl
    · rw [if_neg hkey, if_neg (by simpa using hkey)]

theorem adds_of_addParameter {groups groups' : NameMap FilterParameters} {name : String}
    {values : List String} (h : addParameter groups name values = .ok groups') :
    ∃ p, Adds groups groups' name values p := by
  obtain ⟨p, hp, h⟩ := bind_eq_ok_iff.1 h
  refine ⟨p, ?_⟩
  cases p with
  | junction group =>
      cases h
      exact adds_entry groups hp rfl
  | basePath key =>
      obtain ⟨path, hpath, heq⟩ := bind_eq_ok_iff.1 h
      obtain rfl := singleValue_eq_ok_iff.1 hpath
      cases heq
      exact adds_basePath groups hp
  | condition group text =>
      cases h
      exact adds_entry groups hp rfl

/-- The filters hold exactly what some parameters say of them. -/
structure Collected (groups : NameMap FilterParameters) (added : List (String × List String)) :
    Prop where
  sorted : groups.Sorted
  listed : ∀ key, (of groups key).entries = added.filterMap (entryUnder? key)
  basePath : ∀ key path, (of groups key).basePath = some path →
    ∃ name, (name, [path]) ∈ added ∧ FilterParameter.parse name = .ok (.basePath key)
  based : ∀ key name values, (name, values) ∈ added →
    FilterParameter.parse name = .ok (.basePath key) → (of groups key).basePath.isSome
  keys : ∀ key, (groups.find? key).isSome ↔
    ∃ name values p, (name, values) ∈ added ∧ FilterParameter.parse name = .ok p ∧ p.key = key

theorem Collected.nil : Collected [] [] where
  sorted := List.Pairwise.nil
  listed := by simp [of]
  basePath := by simp [of]
  based := by simp
  keys := by simp

theorem Collected.add {groups groups' : NameMap FilterParameters}
    {added : List (String × List String)} {name : String} {values : List String}
    (h : Collected groups added) (hadd : addParameter groups name values = .ok groups') :
    Collected groups' (added ++ [(name, values)]) := by
  obtain ⟨p, hadds⟩ := adds_of_addParameter hadd
  have hunique : ∀ {p'}, FilterParameter.parse name = .ok p' → p' = p := fun hp' =>
    Except.ok.inj (hp'.symm.trans hadds.parsed)
  have hmem : ∀ other others, (other, others) ∈ added ++ [(name, values)] ↔
      (other, others) ∈ added ∨ other = name ∧ others = values := by
    intro other others
    simp
  refine ⟨hadds.sorted h.sorted, fun key => ?_, fun key path hpath => ?_,
    fun key other others hadded hother => ?_, fun key => ?_⟩
  · rw [hadds.entries, h.listed, List.filterMap_append]
    cases hentry : entryUnder? key (name, values) <;> simp [hentry]
  · rw [hadds.basePath] at hpath
    split at hpath
    · rename_i hp
      obtain ⟨only, rfl⟩ := hadds.single key hp
      obtain rfl : only = path := by simpa using hpath
      exact ⟨name, (hmem _ _).2 (.inr ⟨rfl, rfl⟩), hp ▸ hadds.parsed⟩
    · obtain ⟨other, hadded, hother⟩ := h.basePath key path hpath
      exact ⟨other, (hmem _ _).2 (.inl hadded), hother⟩
  · rw [hadds.basePath]
    split
    · rename_i hp
      obtain ⟨only, rfl⟩ := hadds.single key hp
      rfl
    · rename_i hp
      rcases (hmem _ _).1 hadded with hadded | ⟨rfl, -⟩
      · exact h.based key other others hadded hother
      · exact absurd (hunique hother).symm hp
  · rw [hadds.keys, h.keys]
    constructor
    · rintro (hkey | ⟨other, others, p', hadded, hp'⟩)
      · exact ⟨name, values, p, (hmem _ _).2 (.inr ⟨rfl, rfl⟩), hadds.parsed, hkey⟩
      · exact ⟨other, others, p', (hmem _ _).2 (.inl hadded), hp'⟩
    · rintro ⟨other, others, p', hadded, hp', hkey⟩
      rcases (hmem _ _).1 hadded with hadded | ⟨rfl, rfl⟩
      · exact .inr ⟨other, others, p', hadded, hp', hkey⟩
      · exact .inl (hunique hp' ▸ hkey)

theorem Collected.entries {groups : NameMap FilterParameters} {added : List (String × List String)}
    (h : Collected groups added) (key : String) (e : FilterEntry) :
    e ∈ (of groups key).entries ↔
      ∃ p, (e.name, e.values) ∈ added ∧ FilterParameter.parse e.name = .ok p ∧ p.key = key ∧
        entryFor? e.name e.values p = some e := by
  rw [h.listed, List.mem_filterMap]
  constructor
  · rintro ⟨⟨name, values⟩, hadded, hentry⟩
    obtain ⟨p, hp, hentry⟩ := Option.bind_eq_some_iff.1 hentry
    split at hentry
    · rename_i hkey
      obtain ⟨rfl, rfl, -⟩ := entryFor?_eq_some_iff.1 hentry
      exact ⟨p, hadded, toOption_eq_some_iff.1 hp, hkey, hentry⟩
    · cases hentry
  · rintro ⟨p, hadded, hp, hkey, hentry⟩
    refine ⟨_, hadded, ?_⟩
    simp only [entryUnder?, hp, Except.toOption, Option.bind_some, if_pos hkey, hentry]

/-- The entries of a filter stand in the order of their names. -/
theorem Collected.sorted_names {groups : NameMap FilterParameters} {added : NameMap (List String)}
    (h : Collected groups added) (hadded : added.Sorted) (key : String) :
    ((of groups key).entries.map FilterEntry.name).Pairwise (· < ·) := by
  rw [h.listed, List.pairwise_map, List.pairwise_filterMap]
  refine (List.pairwise_map.1 hadded).imp ?_
  intro parameter other hlt e he e' he'
  obtain ⟨p, -, he⟩ := Option.bind_eq_some_iff.1 he
  obtain ⟨p', -, he'⟩ := Option.bind_eq_some_iff.1 he'
  split at he
  · split at he'
    · rwa [(entryFor?_eq_some_iff.1 he).1, (entryFor?_eq_some_iff.1 he').1]
    · cases he'
  · cases he

/-- The addressed parameters are what is sorted. -/
theorem collected_of_collect {config : Configuration} {keys : List String} {params : Parameters}
    {groups : NameMap FilterParameters} (h : collect config keys params = .ok groups) :
    Collected groups (params.entries.filter fun entry => isAddressed config keys entry.1) :=
  foldlM_accumulates (fun added groups => Collected groups added)
    (fun _ _ _ _ hcollected hadd => hcollected.add hadd) Collected.nil h

/-- Parameters that can be read, with one base path at most for a filter, are sorted. -/
theorem collect_isOk {config : Configuration} {keys : List String} {params : Parameters}
    (h : ∀ name values, (name, values) ∈ params.entries → isAddressed config keys name = true →
      ∃ p, FilterParameter.parse name = .ok p ∧
        ∀ key, p = .basePath key → ∃ path, values = [path]) :
    ∃ groups, collect config keys params = .ok groups := by
  refine foldlM_isOk ?_ _
  rintro groups ⟨name, values⟩ hmem
  obtain ⟨hentry, haddressed⟩ := List.mem_filter.1 hmem
  obtain ⟨p, hp, hbase⟩ := h name values hentry haddressed
  simp only [addParameter, hp, ok_bind]
  cases p with
  | junction group => exact ⟨_, rfl⟩
  | condition group text => exact ⟨_, rfl⟩
  | basePath key =>
      obtain ⟨path, rfl⟩ := hbase key rfl
      exact ⟨_, rfl⟩

end FilterParameters

end ResourceQuery
