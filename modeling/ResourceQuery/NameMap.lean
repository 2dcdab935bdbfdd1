/-!
# Maps from names

Rules, parameters and properties are kept by name, in the order of their names. A map is a list
of entries with strictly increasing names; `NameMap.insert` keeps it so. A `NameSet` is the same
without values.
-/

namespace ResourceQuery

abbrev NameMap (α : Type) := List (String × α)

namespace NameMap

variable {α β : Type}

def find? (name : String) : NameMap α → Option α
  | [] => none
  | (key, value) :: rest => if key = name then some value else find? name rest

def contains (name : String) (m : NameMap α) : Bool := (find? name m).isSome

/-- Put a value under a name, replacing the one that stood there. -/
def insert (name : String) (value : α) : NameMap α → NameMap α
  | [] => [(name, value)]
  | (key, old) :: rest =>
    if name < key then (name, value) :: (key, old) :: rest
    else if key = name then (name, value) :: rest
    else (key, old) :: insert name value rest

def keys (m : NameMap α) : List String := m.map Prod.fst

/-- Entries put one after the other, so a later value under a name replaces an earlier one. -/
def ofList (entries : List (String × α)) : NameMap α :=
  entries.foldl (fun m entry => insert entry.1 entry.2 m) []

/-- Names increase strictly from each entry to the next. -/
def Sorted (m : NameMap α) : Prop := (keys m).Pairwise (· < ·)

@[simp] theorem find?_nil (name : String) : find? name ([] : NameMap α) = none := rfl

theorem mem_insert {name key : String} {value v : α} {m : NameMap α}
    (h : (key, v) ∈ insert name value m) : (key, v) = (name, value) ∨ (key, v) ∈ m := by
  induction m with
  | nil => simpa [insert] using h
  | cons entry rest ih =>
    obtain ⟨k, old⟩ := entry
    unfold insert at h
    split at h
    · simpa using h
    · split at h
      · rcases List.mem_cons.1 h with h | h
        · exact .inl h
        · exact .inr (List.mem_cons_of_mem _ h)
      · rcases List.mem_cons.1 h with h | h
        · exact .inr (h ▸ List.mem_cons_self)
        · rcases ih h with h | h
          · exact .inl h
          · exact .inr (List.mem_cons_of_mem _ h)

theorem sorted_insert {m : NameMap α} (name : String) (value : α) (h : Sorted m) :
    Sorted (insert name value m) := by
  unfold Sorted keys at *
  induction m with
  | nil => simp [insert]
  | cons entry rest ih =>
    obtain ⟨k, old⟩ := entry
    simp only [List.map_cons, List.pairwise_cons, List.mem_map, forall_exists_index, and_imp] at h
    obtain ⟨before, tail⟩ := h
    unfold insert
    split
    · rename_i less
      simp only [List.map_cons, List.pairwise_cons, List.mem_cons, List.mem_map]
      refine ⟨?_, ?_, tail⟩
      · rintro other (rfl | ⟨e, member, rfl⟩)
        · exact less
        · exact String.lt_trans less (before _ e member rfl)
      · rintro other ⟨e, member, rfl⟩
        exact before _ e member rfl
    · rename_i notLess
      split
      · rename_i same
        subst same
        simp only [List.map_cons, List.pairwise_cons, List.mem_map]
        exact ⟨fun other ⟨e, member, he⟩ => before _ e member he, tail⟩
      · rename_i differs
        simp only [List.map_cons, List.pairwise_cons, List.mem_map]
        refine ⟨?_, ih tail⟩
        rintro other ⟨e, member, rfl⟩
        have split : (e.1, e.2) = (name, value) ∨ (e.1, e.2) ∈ rest := mem_insert member
        rcases split with he | he
        · rw [show e.1 = name from congrArg Prod.fst he]
          rcases Decidable.em (k < name) with lt | nlt
          · exact lt
          · have le : k ≤ name := String.not_lt.1 notLess
            exact absurd (String.le_antisymm le (String.not_lt.1 nlt)) differs
        · exact before _ e he rfl

end NameMap

/-- Strictly increasing names. -/
abbrev NameSet := List String

namespace NameSet

def insert (name : String) : NameSet → NameSet
  | [] => [name]
  | key :: rest =>
    if name < key then name :: key :: rest
    else if key = name then key :: rest
    else key :: insert name rest

def insertAll (names : List String) (s : NameSet) : NameSet :=
  names.foldl (fun s name => insert name s) s

def ofList (names : List String) : NameSet := insertAll names []

end NameSet

end ResourceQuery
