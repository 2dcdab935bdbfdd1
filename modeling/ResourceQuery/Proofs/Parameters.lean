import Mathlib.Data.List.Induction
import ResourceQuery.Parameters
import ResourceQuery.Proofs.NameMap
/-!
# Parameters of pairs

A parameter has the values that pairs give to its name, in the order of the pairs.
-/

namespace ResourceQuery

namespace Parameters

/-- The values that pairs give to a name. -/
def given (name : String) (pairs : List (String × String)) : List String :=
  (pairs.filter fun pair => pair.1 = name).map Prod.snd

theorem mem_given {name value : String} {pairs : List (String × String)} :
    value ∈ given name pairs ↔ (name, value) ∈ pairs := by
  simp only [given, List.mem_map, List.mem_filter, decide_eq_true_eq]
  constructor
  · rintro ⟨⟨_, _⟩, ⟨hmem, rfl⟩, rfl⟩
    exact hmem
  · intro hmem
    exact ⟨(name, value), ⟨hmem, rfl⟩, rfl⟩

theorem given_ne_nil_iff {name : String} {pairs : List (String × String)} :
    given name pairs ≠ [] ↔ ∃ value, (name, value) ∈ pairs := by
  constructor
  · intro hne
    obtain ⟨value, hvalue⟩ := List.exists_mem_of_ne_nil _ hne
    exact ⟨value, mem_given.1 hvalue⟩
  · rintro ⟨value, hvalue⟩
    exact List.ne_nil_of_mem (mem_given.2 hvalue)

theorem given_append (name : String) (pairs more : List (String × String)) :
    given name (pairs ++ more) = given name pairs ++ given name more := by
  rw [given, List.filter_append, List.map_append]
  rfl

theorem given_flatMap {ι : Type} (name : String) (pairs : ι → List (String × String))
    (items : List ι) :
    given name (items.flatMap pairs) = items.flatMap fun i => given name (pairs i) := by
  induction items with
  | nil => rfl
  | cons i rest ih => rw [List.flatMap_cons, given_append, ih, List.flatMap_cons]

theorem given_eq_nil {name : String} {pairs : List (String × String)}
    (h : ∀ pair ∈ pairs, pair.1 ≠ name) : given name pairs = [] := by
  rw [given, List.map_eq_nil_iff, List.filter_eq_nil_iff]
  intro pair hpair
  simpa using h pair hpair

theorem given_map (name : String) (values : List String) :
    given name (values.map fun value => (name, value)) = values := by
  simp [given, List.filter_map, Function.comp_def]

theorem given_map_ne {name other : String} (h : other ≠ name) (values : List String) :
    given name (values.map fun value => (other, value)) = [] := by
  apply given_eq_nil
  intro pair hpair
  obtain ⟨value, -, rfl⟩ := List.mem_map.1 hpair
  exact h

/-- A name that stands once has the values that stand with it. -/
theorem given_of_nodup {ι : Type} {nameOf : ι → String} {valuesOf : ι → List String}
    {items : List ι} (hnodup : (items.map nameOf).Nodup) {i : ι} (hi : i ∈ items) :
    given (nameOf i) (items.flatMap fun j => (valuesOf j).map fun value => (nameOf j, value)) =
      valuesOf i := by
  induction items with
  | nil => cases hi
  | cons j rest ih =>
      rw [List.map_cons, List.nodup_cons] at hnodup
      rw [List.flatMap_cons, given_append]
      rcases List.mem_cons.1 hi with rfl | hi
      · rw [given_map, given_eq_nil, List.append_nil]
        intro pair hpair hname
        obtain ⟨k, hk, hpair⟩ := List.mem_flatMap.1 hpair
        obtain ⟨value, -, rfl⟩ := List.mem_map.1 hpair
        exact hnodup.1 (hname ▸ List.mem_map_of_mem hk)
      · rw [ih hnodup.2 hi, given_eq_nil, List.nil_append]
        intro pair hpair hname
        obtain ⟨value, -, rfl⟩ := List.mem_map.1 hpair
        have hsame : nameOf j = nameOf i := hname
        exact hnodup.1 (hsame ▸ List.mem_map_of_mem hi)

/-- The order of names does not matter if each name stands once. -/
theorem given_perm {ι : Type} {items others : List ι} {pairs : ι → List (String × String)}
    {nameOf : ι → String} (hperm : items.Perm others) (hnodup : (items.map nameOf).Nodup)
    (hnames : ∀ i ∈ items, ∀ pair ∈ pairs i, pair.1 = nameOf i) (name : String) :
    given name (items.flatMap pairs) = given name (others.flatMap pairs) := by
  rw [given_flatMap, given_flatMap]
  induction hperm with
  | nil => rfl
  | cons i hperm ih =>
      rw [List.map_cons, List.nodup_cons] at hnodup
      rw [List.flatMap_cons, List.flatMap_cons,
        ih hnodup.2 fun j hj => hnames j (List.mem_cons_of_mem _ hj)]
  | swap i j rest =>
      have hne : nameOf j ≠ nameOf i := by
        rw [List.map_cons, List.nodup_cons] at hnodup
        exact fun heq => hnodup.1 (heq ▸ List.mem_map_of_mem List.mem_cons_self)
      have hempty : given name (pairs j) = [] ∨ given name (pairs i) = [] := by
        by_cases hname : nameOf j = name
        · right
          apply given_eq_nil
          intro pair hpair heq
          exact hne (by rw [hname, ← heq, hnames i (by simp) pair hpair])
        · left
          apply given_eq_nil
          intro pair hpair heq
          exact hname (by rw [← heq, hnames j (by simp) pair hpair])
      simp only [List.flatMap_cons]
      rcases hempty with hempty | hempty
      · rw [hempty, List.nil_append, List.nil_append]
      · rw [hempty, List.nil_append, List.nil_append]
  | trans hfirst _ ih ih' =>
      rw [ih hnodup hnames, ih' ((hfirst.map nameOf).nodup_iff.1 hnodup)
        fun i hi => hnames i (hfirst.mem_iff.2 hi)]

theorem values_add (p : Parameters) (name other value : String) :
    (p.add name value).values other =
      if name = other then p.values other ++ [value] else p.values other := by
  rw [values, add, NameMap.find?_insert]
  split
  · rename_i heq
    rw [heq]
    rfl
  · rfl

theorem find?_ofPairs (pairs : List (String × String)) (name : String) :
    (ofPairs pairs).entries.find? name =
      if given name pairs = [] then none else some (given name pairs) := by
  induction pairs using List.reverseRecOn with
  | nil => rfl
  | append_singleton pairs pair ih =>
      have hfold : ofPairs (pairs ++ [pair]) = (ofPairs pairs).add pair.1 pair.2 := by
        rw [ofPairs, List.foldl_append]
        rfl
      have hgiven : given name (pairs ++ [pair]) =
          given name pairs ++ if pair.1 = name then [pair.2] else [] := by
        rw [given, List.filter_append, List.map_append]
        by_cases hname : pair.1 = name <;> simp [given, hname]
      rw [hfold, add, NameMap.find?_insert, hgiven]
      by_cases hname : pair.1 = name
      · subst hname
        have hvalues : (ofPairs pairs).values pair.1 = given pair.1 pairs := by
          rw [values, ih]
          split
          · rename_i hempty
            rw [hempty]
            rfl
          · rfl
        simp [hvalues]
      · simp [hname, ih]

/-- The parameters of pairs are the names that occur, each with its values in their order. -/
theorem mem_entries_ofPairs {pairs : List (String × String)} {name : String}
    {values : List String} :
    (name, values) ∈ (ofPairs pairs).entries ↔ values ≠ [] ∧ values = given name pairs := by
  have hiff : (name, values) ∈ (ofPairs pairs).entries ↔
      (ofPairs pairs).entries.find? name = some values :=
    ⟨NameMap.find?_of_mem (ofPairs pairs).sorted, NameMap.mem_of_find?⟩
  rw [hiff, find?_ofPairs]
  constructor
  · intro h
    split at h
    · cases h
    · rename_i hne
      cases h
      exact ⟨hne, rfl⟩
  · rintro ⟨hne, rfl⟩
    rw [if_neg hne]

/-- Pairs that give every name the same values are the same parameters. -/
theorem ofPairs_congr {pairs others : List (String × String)}
    (h : ∀ name, given name pairs = given name others) : ofPairs pairs = ofPairs others := by
  have hentries : (ofPairs pairs).entries = (ofPairs others).entries :=
    (ofPairs pairs).sorted.ext (ofPairs others).sorted fun name => by
      rw [find?_ofPairs, find?_ofPairs, h]
  cases hfirst : ofPairs pairs
  cases hsecond : ofPairs others
  rw [hfirst, hsecond] at hentries
  cases hentries
  rfl

theorem values_ofPairs (pairs : List (String × String)) (name : String) :
    (ofPairs pairs).values name = given name pairs := by
  rw [values, find?_ofPairs]
  split
  · rename_i hempty
    rw [hempty]
    rfl
  · rfl

end Parameters

end ResourceQuery
