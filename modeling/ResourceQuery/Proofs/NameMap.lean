import Mathlib.Data.List.Perm.Basic
import ResourceQuery.NameMap
import ResourceQuery.Text.Piece
/-!
# Looking up names

A map finds what was put in last. In a sorted map every entry is found under its name, and the
names that begin alike stand next to each other, so that a scan from their start on finds them all
(`NameMap.scan_eq_filter`).
-/

namespace ResourceQuery

namespace NameSet

/-- The names increase strictly. -/
def Sorted (set : NameSet) : Prop := set.Pairwise (· < ·)

/-- Sorted sets with the same names are equal. -/
theorem Sorted.ext {set other : NameSet} (h : Sorted set) (h' : Sorted other)
    (hmem : ∀ name, name ∈ set ↔ name ∈ other) : set = other := by
  have hnodup : ∀ {set : NameSet}, Sorted set → set.Nodup := by
    intro set hset
    refine List.Pairwise.imp ?_ hset
    rintro a b hlt rfl
    exact String.lt_irrefl _ hlt
  have hperm := (List.perm_ext_iff_of_nodup (hnodup h) (hnodup h')).2 hmem
  exact hperm.eq_of_pairwise
    (fun a b _ _ hab hba => absurd (String.lt_trans hab hba) (String.lt_irrefl _)) h h'

end NameSet

namespace NameMap

variable {α : Type}

theorem find?_insert (name key : String) (value : α) (m : NameMap α) :
    find? key (insert name value m) = if name = key then some value else find? key m := by
  induction m with
  | nil => rfl
  | cons entry rest ih =>
      obtain ⟨other, old⟩ := entry
      rw [insert]
      split
      · rfl
      · split
        · rename_i heq
          subst heq
          rw [find?, find?]
          split <;> rfl
        · rename_i hne
          rw [find?, find?, ih]
          by_cases hother : other = key
          · subst hother
            rw [if_pos rfl, if_pos rfl, if_neg (Ne.symm hne)]
          · rw [if_neg hother, if_neg hother]

@[simp] theorem find?_insert_self (name : String) (value : α) (m : NameMap α) :
    find? name (insert name value m) = some value := by
  rw [find?_insert, if_pos rfl]

theorem find?_insert_ne {name other : String} (value : α) (m : NameMap α) (hne : name ≠ other) :
    find? other (insert name value m) = find? other m := by
  rw [find?_insert, if_neg hne]

theorem isSome_find?_insert (name key : String) (value : α) (m : NameMap α) :
    (find? key (insert name value m)).isSome = true ↔ name = key ∨ (find? key m).isSome = true := by
  rw [find?_insert]
  by_cases hkey : name = key <;> simp [hkey]

theorem mem_of_find? {name : String} {value : α} {m : NameMap α} (h : find? name m = some value) :
    (name, value) ∈ m := by
  induction m with
  | nil => cases h
  | cons entry rest ih =>
      obtain ⟨key, old⟩ := entry
      rw [find?] at h
      split at h
      · rename_i heq
        cases h
        simp [heq]
      · exact List.mem_cons_of_mem _ (ih h)

/-- Names of a sorted map occur once. -/
theorem find?_of_mem {name : String} {value : α} {m : NameMap α} (hsorted : Sorted m)
    (h : (name, value) ∈ m) : find? name m = some value := by
  induction m with
  | nil => cases h
  | cons entry rest ih =>
      obtain ⟨key, old⟩ := entry
      rw [Sorted, keys, List.map_cons, List.pairwise_cons] at hsorted
      obtain ⟨hfirst, hrest⟩ := hsorted
      rw [find?]
      rcases List.mem_cons.1 h with heq | hmem
      · cases heq
        rw [if_pos rfl]
      · have hlt : key < name := hfirst name (List.mem_map_of_mem hmem)
        rw [if_neg, ih hrest hmem]
        rintro rfl
        exact String.lt_irrefl key hlt

theorem find?_eq_none {name : String} {m : NameMap α} (h : name ∉ keys m) :
    find? name m = none := by
  cases hfind : find? name m with
  | none => rfl
  | some value => exact absurd (List.mem_map_of_mem (mem_of_find? hfind)) h

theorem contains_iff {name : String} {m : NameMap α} : contains name m = true ↔ name ∈ keys m := by
  constructor
  · intro h
    obtain ⟨value, hvalue⟩ := Option.isSome_iff_exists.1 h
    exact List.mem_map_of_mem (mem_of_find? hvalue)
  · intro h
    induction m with
    | nil => cases h
    | cons entry rest ih =>
        rw [keys, List.map_cons, List.mem_cons] at h
        rw [contains, find?]
        split
        · rfl
        · rename_i hne
          exact ih (h.resolve_left fun heq => hne heq.symm)

theorem find?_eq_some_iff {name : String} {value : α} {m : NameMap α} (hsorted : Sorted m) :
    find? name m = some value ↔ (name, value) ∈ m :=
  ⟨mem_of_find?, find?_of_mem hsorted⟩

theorem Sorted.nodup {m : NameMap α} (h : Sorted m) : m.Nodup := by
  refine (List.pairwise_map.1 h).imp ?_
  rintro a b hlt rfl
  exact String.lt_irrefl _ hlt

/-- A sorted map is what is found in it. -/
theorem Sorted.ext {m other : NameMap α} (h : Sorted m) (h' : Sorted other)
    (hfind : ∀ name, find? name m = find? name other) : m = other := by
  have hmem : ∀ entry, entry ∈ m ↔ entry ∈ other := by
    rintro ⟨name, value⟩
    rw [← find?_eq_some_iff h, ← find?_eq_some_iff h', hfind]
  have hasymm : ∀ a b : String × α, a ∈ m → b ∈ other → a.1 < b.1 → b.1 < a.1 → a = b :=
    fun a b _ _ hab hba => absurd (String.lt_trans hab hba) (String.lt_irrefl _)
  have hperm := (List.perm_ext_iff_of_nodup h.nodup h'.nodup).2 hmem
  exact hperm.eq_of_pairwise hasymm (List.pairwise_map.1 h) (List.pairwise_map.1 h')

/-- Sorted maps that contain the same names have them in the same order. -/
theorem Sorted.keys_eq {m other : NameMap α} (h : Sorted m) (h' : Sorted other)
    (hcontains : ∀ name, contains name m = true ↔ contains name other = true) :
    keys m = keys other := by
  have hmem : ∀ name, name ∈ keys m ↔ name ∈ keys other := fun name => by
    rw [← contains_iff, ← contains_iff, hcontains]
  exact NameSet.Sorted.ext h h' hmem

/-- A name behind all others is put behind them. -/
theorem insert_last {m : NameMap α} {name : String} {value : α} {rest : NameMap α}
    (h : Sorted (m ++ (name, value) :: rest)) : insert name value m = m ++ [(name, value)] := by
  induction m with
  | nil => rfl
  | cons entry others ih =>
      obtain ⟨key, old⟩ := entry
      rw [Sorted, keys, List.cons_append, List.map_cons, List.pairwise_cons] at h
      have hlt : key < name := h.1 name (by simp)
      have hne : key ≠ name := fun heq => String.lt_irrefl name (by rwa [heq] at hlt)
      rw [insert, if_neg fun hgt => String.lt_irrefl _ (String.lt_trans hlt hgt), if_neg hne,
        ih h.2]
      rfl

/-- Entries that are put in in the order of their names stay in it. -/
theorem foldl_insert_sorted {m rest : NameMap α} (h : Sorted (m ++ rest)) :
    rest.foldl (fun m entry => insert entry.1 entry.2 m) m = m ++ rest := by
  induction rest generalizing m with
  | nil => simp
  | cons entry rest ih =>
      rw [List.foldl_cons, insert_last h, ih (by simpa using h), List.append_assoc,
        List.singleton_append]

theorem ofList_sorted {m : NameMap α} (h : Sorted m) : ofList m = m := foldl_insert_sorted h

theorem contains_foldl_insert {name : String} (entries m : NameMap α) :
    contains name (entries.foldl (fun m entry => insert entry.1 entry.2 m) m) = true ↔
      name ∈ keys entries ∨ contains name m = true := by
  induction entries generalizing m with
  | nil => simp [keys]
  | cons entry rest ih =>
      have hinsert : contains name (insert entry.1 entry.2 m) = true ↔
          name = entry.1 ∨ contains name m = true := by
        rw [contains, contains, find?_insert]
        by_cases heq : entry.1 = name
        · simp [heq]
        · simp [heq, Ne.symm heq]
      rw [List.foldl_cons, ih, hinsert, keys, keys, List.map_cons, List.mem_cons, or_left_comm,
        or_assoc]

/-- What is found is one of the entries that were put in, or was there before. -/
theorem mem_of_find?_foldl_insert {name : String} {value : α} {entries m : NameMap α}
    (h : find? name (entries.foldl (fun m entry => insert entry.1 entry.2 m) m) = some value) :
    (name, value) ∈ entries ∨ find? name m = some value := by
  induction entries generalizing m with
  | nil => exact .inr h
  | cons entry rest ih =>
      rcases ih h with hrest | hfound
      · exact .inl (List.mem_cons_of_mem _ hrest)
      · rw [find?_insert] at hfound
        split at hfound
        · rename_i heq
          cases hfound
          subst heq
          exact .inl List.mem_cons_self
        · exact .inr hfound

theorem sorted_foldl_insert {m : NameMap α} (entries : NameMap α) (h : Sorted m) :
    Sorted (entries.foldl (fun m entry => insert entry.1 entry.2 m) m) := by
  induction entries generalizing m with
  | nil => exact h
  | cons entry rest ih => exact ih (sorted_insert _ _ h)

/-- Without the entry that was put in, a map that had none of its name is left. -/
theorem filter_insert {name : String} {m : NameMap α} (value : α) (h : name ∉ keys m) :
    (insert name value m).filter (fun entry => name ≠ entry.1) = m := by
  induction m with
  | nil => simp [insert]
  | cons entry rest ih =>
      obtain ⟨key, old⟩ := entry
      have hne : name ≠ key := fun heq => h (by simp [keys, heq])
      have hrest : name ∉ keys rest := fun hmem => h (List.mem_cons_of_mem _ hmem)
      have hall : rest.filter (fun entry => name ≠ entry.1) = rest := by
        rw [List.filter_eq_self]
        intro other hother
        have : name ≠ other.1 := fun heq => hrest (heq ▸ List.mem_map_of_mem hother)
        simpa using this
      rw [insert]
      split
      · rw [List.filter_cons_of_neg (by simp), List.filter_cons_of_pos (by simpa using hne), hall]
      · rw [if_neg (Ne.symm hne), List.filter_cons_of_pos (by simpa using hne), ih hrest]

/-- What is put in under a name that a choice leaves out changes nothing of the choice. -/
theorem filter_insert_of_not {p : String → Bool} {name : String} (hname : p name = false)
    (value : α) (m : NameMap α) :
    (insert name value m).filter (fun entry => p entry.1) = m.filter fun entry => p entry.1 := by
  induction m with
  | nil => simp [insert, hname]
  | cons entry rest ih =>
      obtain ⟨key, old⟩ := entry
      rw [insert]
      split
      · rw [List.filter_cons_of_neg (by simp [hname])]
      · split
        · rename_i heq
          subst heq
          rw [List.filter_cons_of_neg (by simp [hname]), List.filter_cons_of_neg (by simp [hname])]
        · rw [List.filter_cons, List.filter_cons, ih]

/-- Between a start and a name that begins with it, all names begin with it. -/
theorem prefix_of_between {start a b : List Char} (hstart : ¬a < start) (hab : ¬b < a)
    (hb : start <+: b) : start <+: a := by
  induction start generalizing a b with
  | nil => exact List.nil_prefix
  | cons x start ih =>
      obtain ⟨tail, rfl⟩ := hb
      cases a with
      | nil => exact absurd (List.nil_lt_cons x start) hstart
      | cons y a =>
          rw [List.cons_append, List.cons_lt_cons_iff] at hab
          rw [List.cons_lt_cons_iff] at hstart
          have hxy : x = y := by
            have hyx : ¬y < x := fun h => hstart (.inl h)
            have hxy : ¬x < y := fun h => hab (.inl h)
            exact Char.le_antisymm (Char.not_lt.1 hyx) (Char.not_lt.1 hxy)
          subst hxy
          rw [List.cons_prefix_cons]
          refine ⟨rfl, ih (b := start ++ tail) (fun h => hstart (.inr ⟨rfl, h⟩))
            (fun h => hab (.inr ⟨rfl, h⟩)) (List.prefix_append _ _)⟩

/-- Where no name is below a start, the names that begin with it are in front of all others: the
first one without it has none with it behind. -/
theorem takeWhile_startsWith {m : NameMap α} (hsorted : Sorted m) {start : String}
    (hleast : ∀ entry ∈ m, ¬entry.1 < start) :
    (m.takeWhile fun entry => Text.startsWith entry.1 start) =
      m.filter fun entry => Text.startsWith entry.1 start := by
  induction m with
  | nil => rfl
  | cons entry rest ih =>
      rw [Sorted, keys, List.map_cons, List.pairwise_cons] at hsorted
      obtain ⟨hfirst, hrest⟩ := hsorted
      rw [List.takeWhile_cons, List.filter_cons]
      split
      · rw [ih hrest fun other hother => hleast other (List.mem_cons_of_mem _ hother)]
      · -- a name with the start behind this one would give it to this one too
        rename_i hwithout
        symm
        rw [List.filter_eq_nil_iff]
        intro other hother hstart
        refine hwithout ?_
        have hless : entry.1 < other.1 := hfirst other.1 (List.mem_map_of_mem hother)
        rw [Text.startsWith, List.isPrefixOf_iff_prefix] at hstart ⊢
        exact prefix_of_between (hleast entry List.mem_cons_self)
          (List.lt_asymm (String.lt_iff.1 hless)) hstart

/-- A scan of a sorted map from a start on, up to the first name that does not begin with it, finds
all names that do. -/
theorem scan_eq_filter {m : NameMap α} (hsorted : Sorted m) (start : String) :
    ((m.dropWhile fun entry => entry.1 < start).takeWhile fun entry =>
        Text.startsWith entry.1 start) =
      m.filter fun entry => Text.startsWith entry.1 start := by
  induction m with
  | nil => rfl
  | cons entry rest ih =>
      have hsplit := hsorted
      rw [Sorted, keys, List.map_cons, List.pairwise_cons] at hsplit
      obtain ⟨hfirst, hrest⟩ := hsplit
      by_cases hless : entry.1 < start
      · have hwithout : ¬Text.startsWith entry.1 start = true := by
          rw [Text.startsWith, List.isPrefixOf_iff_prefix]
          exact fun hstart => hstart.le (String.lt_iff.1 hless)
        rw [List.dropWhile_cons_of_pos (by simpa using hless), ih hrest, List.filter_cons,
          if_neg hwithout]
      · rw [List.dropWhile_cons_of_neg (by simpa using hless)]
        refine takeWhile_startsWith hsorted ?_
        intro other hother
        rcases List.mem_cons.1 hother with rfl | hother
        · exact hless
        · have hmore : entry.1 < other.1 := hfirst other.1 (List.mem_map_of_mem hother)
          exact fun h => hless (String.lt_trans hmore h)

end NameMap

namespace NameSet

theorem mem_insert {name other : String} {set : NameSet} :
    other ∈ insert name set ↔ other = name ∨ other ∈ set := by
  induction set with
  | nil => simp [insert]
  | cons key rest ih =>
      unfold insert
      split
      · simp
      · split
        · rename_i heq
          simp [heq]
        · simp only [List.mem_cons, ih]
          exact or_left_comm

theorem mem_insertAll {name : String} {names : List String} {set : NameSet} :
    name ∈ insertAll names set ↔ name ∈ names ∨ name ∈ set := by
  induction names generalizing set with
  | nil => simp [insertAll]
  | cons first rest ih =>
      have hstep : insertAll (first :: rest) set = insertAll rest (insert first set) := rfl
      rw [hstep, ih, mem_insert, List.mem_cons, or_left_comm, or_assoc]

theorem mem_ofList {name : String} {names : List String} : name ∈ ofList names ↔ name ∈ names := by
  simp [ofList, mem_insertAll]

theorem sorted_insert {set : NameSet} (name : String) (h : Sorted set) :
    Sorted (insert name set) := by
  induction set with
  | nil => exact List.pairwise_singleton _ _
  | cons key rest ih =>
      have hrest : Sorted rest := (List.pairwise_cons.1 h).2
      have hkey : ∀ other ∈ rest, key < other := (List.pairwise_cons.1 h).1
      unfold insert
      split
      · rename_i hless
        refine List.pairwise_cons.2 ⟨?_, h⟩
        intro other hother
        rcases List.mem_cons.1 hother with rfl | hother
        · exact hless
        · exact String.lt_trans hless (hkey other hother)
      · rename_i hless
        split
        · exact h
        · rename_i hne
          refine List.pairwise_cons.2 ⟨?_, ih hrest⟩
          intro other hother
          rcases mem_insert.1 hother with rfl | hother
          · exact Decidable.byContradiction fun hmore =>
              hne (String.le_antisymm (String.not_lt.1 hless) (String.not_lt.1 hmore))
          · exact hkey other hother

theorem sorted_insertAll {set : NameSet} (names : List String) (h : Sorted set) :
    Sorted (insertAll names set) := by
  induction names generalizing set with
  | nil => exact h
  | cons first rest ih => exact ih (sorted_insert first h)

theorem sorted_ofList (names : List String) : Sorted (ofList names) :=
  sorted_insertAll names List.Pairwise.nil

end NameSet

end ResourceQuery
