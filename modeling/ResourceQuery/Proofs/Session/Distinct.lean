import ResourceQuery.Proofs.Session.Submitted
/-!
# Collections that are read

The elements of a set that is read are different from each other, as equal ones are left out. The
keys of a map are what the names in the document are read as, one by one, and nothing is left out:
they are different exactly if no two names are read as equal keys (`ofDocument_collections`), which
`1` and `01` are as numbers.
-/

namespace ResourceQuery

theorem Binary.equal_comm {f : Binary.Format} (x y : Binary f) : x.equal y = y.equal x := by
  cases x <;> cases y <;> simp [equal, Bool.beq_comm, Bool.and_comm]

/-! ## Values in a value -/

namespace Value

/-- The value stands in the other one, at any depth, or is the whole of it. -/
inductive Occurs : Value → Value → Prop
  | whole {v : Value} : Occurs v v
  | listItem {w item : Value} {items : List Value} (h : Occurs w item) (hitem : item ∈ items) :
      Occurs w (.list items)
  | setItem {w item : Value} {items : List Value} (h : Occurs w item) (hitem : item ∈ items) :
      Occurs w (.set items)
  | key {w : Value} {entry : Value × Value} {entries : List (Value × Value)}
      (h : Occurs w entry.1) (hentry : entry ∈ entries) : Occurs w (.map entries)
  | entry {w : Value} {entry : Value × Value} {entries : List (Value × Value)}
      (h : Occurs w entry.2) (hentry : entry ∈ entries) : Occurs w (.map entries)
  | property {w : Value} {typeName : String} {entry : String × Value}
      {properties : List (String × Value)} (h : Occurs w entry.2) (hentry : entry ∈ properties) :
      Occurs w (.object typeName properties)
  | identifier {w id : Value} {resourceType : String} (h : Occurs w id) :
      Occurs w (.reference resourceType id)

/-- All values in the value have the property. -/
def Throughout (P : Value → Prop) (v : Value) : Prop := ∀ w, w.Occurs v → P w

section

variable {P : Value → Prop}

theorem throughout_of_isLeaf (hP : ∀ w, w.isLeaf = true → P w) {v : Value}
    (h : v.isLeaf = true) : v.Throughout P := by
  intro w hw
  apply hP w
  induction hw with
  | whole => exact h
  | identifier _ ih => exact ih h
  | listItem | setItem | key | entry | property => cases h

theorem throughout_list {items : List Value} (hP : P (.list items))
    (h : ∀ item ∈ items, item.Throughout P) : (Value.list items).Throughout P := by
  intro w hw
  cases hw with
  | whole => exact hP
  | listItem hw hitem => exact h _ hitem w hw

theorem throughout_set {items : List Value} (hP : P (.set items))
    (h : ∀ item ∈ items, item.Throughout P) : (Value.set items).Throughout P := by
  intro w hw
  cases hw with
  | whole => exact hP
  | setItem hw hitem => exact h _ hitem w hw

theorem throughout_map {entries : List (Value × Value)} (hP : P (.map entries))
    (hkeys : ∀ entry ∈ entries, entry.1.Throughout P)
    (hvalues : ∀ entry ∈ entries, entry.2.Throughout P) : (Value.map entries).Throughout P := by
  intro w hw
  cases hw with
  | whole => exact hP
  | key hw hentry => exact hkeys _ hentry w hw
  | entry hw hentry => exact hvalues _ hentry w hw

theorem throughout_object {typeName : String} {properties : List (String × Value)}
    (hP : P (.object typeName properties)) (h : ∀ entry ∈ properties, entry.2.Throughout P) :
    (Value.object typeName properties).Throughout P := by
  intro w hw
  cases hw with
  | whole => exact hP
  | property hw hentry => exact h _ hentry w hw

end

/-! ## Values that differ -/

mutual

theorem same_comm : ∀ v w : Value, v.same w = w.same v
  | .null, w => by cases w <;> simp [same]
  | .bool a, w => by cases w <;> simp [same, Bool.beq_comm]
  | .whole width n, w => by cases w <;> simp [same, Bool.beq_comm]
  | .float x, w => by cases w <;> simp [same, Binary.equal_comm x]
  | .double x, w => by cases w <;> simp [same, Binary.equal_comm x]
  | .decimal d, w => by cases w <;> simp [same, Decimal.equal, Bool.beq_comm]
  | .date t, w => by cases w <;> simp [same, Bool.beq_comm]
  | .text s, w => by cases w <;> simp [same, Bool.beq_comm]
  | .enum s, w => by cases w <;> simp [same, Bool.beq_comm]
  | .reference s id, w => by cases w <;> simp [same, Bool.beq_comm, same_comm id]
  | .object s ps, w => by cases w <;> simp [same, Bool.beq_comm, sameProperties_comm ps]
  | .list xs, w => by cases w <;> simp [same, sameItems_comm xs]
  | .set xs, w => by cases w <;> simp [same, sameItems_comm xs]
  | .map es, w => by cases w <;> simp [same, sameEntries_comm es]

theorem sameItems_comm : ∀ xs ys : List Value, sameItems xs ys = sameItems ys xs
  | [], ys => by cases ys <;> simp [sameItems]
  | x :: xs, ys => by cases ys <;> simp [sameItems, same_comm x, sameItems_comm xs]

theorem sameProperties_comm : ∀ ps qs : List (String × Value),
    sameProperties ps qs = sameProperties qs ps
  | [], qs => by cases qs <;> simp [sameProperties]
  | _ :: _, [] => by simp [sameProperties]
  | (m, x) :: ps, (n, y) :: qs => by
    rw [sameProperties, sameProperties, same_comm x, sameProperties_comm ps, Bool.beq_comm]

theorem sameEntries_comm : ∀ es fs : List (Value × Value), sameEntries es fs = sameEntries fs es
  | [], fs => by cases fs <;> simp [sameEntries]
  | _ :: _, [] => by simp [sameEntries]
  | (k, x) :: es, (l, y) :: fs => by
    rw [sameEntries, sameEntries, same_comm k, same_comm x, sameEntries_comm es]

end

/-- No two of the values are equal. -/
def AllDiffer (values : List Value) : Prop :=
  ∀ (i j : Nat) (v w : Value), i ≠ j → values[i]? = some v → values[j]? = some w →
    v.same w = false

theorem allDiffer_iff {values : List Value} :
    AllDiffer values ↔ values.Pairwise fun v w => v.same w = false := by
  rw [List.pairwise_iff_getElem]
  constructor
  · intro h i j hi hj hij
    exact h i j _ _ (Nat.ne_of_lt hij) (List.getElem?_eq_getElem hi) (List.getElem?_eq_getElem hj)
  · intro h i j v w hne hv hw
    obtain ⟨hi, rfl⟩ := List.getElem?_eq_some_iff.1 hv
    obtain ⟨hj, rfl⟩ := List.getElem?_eq_some_iff.1 hw
    rcases Nat.lt_or_gt_of_ne hne with hlt | hgt
    · exact h i j hi hj hlt
    · rw [same_comm]
      exact h j i hj hi hgt

/-- An element is kept only if it differs from all that were kept before. -/
theorem pairwise_distinct {kept items : List Value}
    (h : kept.Pairwise fun v w => v.same w = false) :
    (distinct kept items).Pairwise fun v w => v.same w = false := by
  induction items generalizing kept with
  | nil => exact h
  | cons item rest ih =>
      rw [distinct]
      split
      · exact ih h
      · rename_i hnew
        apply ih
        rw [List.pairwise_append]
        refine ⟨h, List.pairwise_singleton _ _, ?_⟩
        intro v hv w hw
        obtain rfl := List.mem_singleton.1 hw
        simpa using fun hsame => hnew (List.any_eq_true.2 ⟨v, hv, hsame⟩)

theorem allDiffer_distinct (items : List Value) : AllDiffer (distinct [] items) :=
  allDiffer_iff.2 (pairwise_distinct .nil)

end Value

/-! ## Documents with sorted names -/

namespace Json

/-- The names of every object in the document are sorted and stand once. -/
def IsCanonical (j : Json) : Prop := ∃ document : Json, j = document.canonical

theorem mem_canonicalItems {items : List Json} {j : Json} (h : j ∈ canonicalItems items) :
    j.IsCanonical := by
  induction items with
  | nil => cases h
  | cons item rest ih =>
      rw [canonicalItems] at h
      rcases List.mem_cons.1 h with rfl | h
      · exact ⟨item, rfl⟩
      · exact ih h

theorem mem_canonicalMembers {members : List (String × Json)} {member : String × Json}
    (h : member ∈ canonicalMembers members) : member.2.IsCanonical := by
  induction members with
  | nil => cases h
  | cons first rest ih =>
      rw [canonicalMembers] at h
      rcases List.mem_cons.1 h with rfl | h
      · exact ⟨first.2, rfl⟩
      · exact ih h

theorem IsCanonical.items {items : List Json} (h : (array items).IsCanonical) :
    ∀ item ∈ items, item.IsCanonical := by
  obtain ⟨document, h⟩ := h
  cases document with
  | array others =>
      rw [canonical] at h
      cases h
      exact fun item hitem => mem_canonicalItems hitem
  | _ => cases h

theorem IsCanonical.members {members : List (String × Json)} (h : (object members).IsCanonical) :
    NameMap.Sorted members ∧ ∀ member ∈ members, member.2.IsCanonical := by
  obtain ⟨document, h⟩ := h
  cases document with
  | object others =>
      rw [canonical] at h
      cases h
      have hsorted : NameMap.Sorted (NameMap.ofList (canonicalMembers others)) :=
        NameMap.sorted_foldl_insert _ List.Pairwise.nil
      refine ⟨hsorted, fun member hmember => ?_⟩
      have hfind := NameMap.find?_of_mem hsorted hmember
      rcases NameMap.mem_of_find?_foldl_insert hfind with hmem | hnone
      · exact mem_canonicalMembers hmem
      · cases hnone
  | _ => cases h

end Json

/-! ## Parts that are read -/

namespace ValueType

section

variable (s : Schema) (principal : Option Principal) (type : ValueType) (document : Json)

/-- Reading the document under the type comes to a part of it, which is read under a type of its
own. -/
inductive Reaches : ValueType → Json → Prop
  | whole : Reaches type document
  | listItem {inner : ValueType} {items : List Json} {item : Json}
      (h : Reaches (.list inner) (.array items)) (hitem : item ∈ items) : Reaches inner item
  | setItem {inner : ValueType} {items : List Json} {item : Json}
      (h : Reaches (.set inner) (.array items)) (hitem : item ∈ items) : Reaches inner item
  | entry {key inner : ValueType} {members : List (String × Json)} {member : String × Json}
      (h : Reaches (.map key inner) (.object members)) (hmember : member ∈ members) :
      Reaches inner member.2
  | property {typeName : String} {members : List (String × Json)} {c : Container}
      {tag : Option String} {member : String × Json} {p : Property}
      (h : Reaches (.object typeName) (.object members))
      (hopened : s.openMembers typeName members = .ok (c, tag)) (hmember : member ∈ members)
      (htag : tag ≠ some member.1)
      (hp : Schema.submittable principal c member.1 = .ok (some p)) : Reaches p.type member.2

end

section

variable {s : Schema} {principal : Option Principal} {type : ValueType} {document : Json}

theorem Reaches.isCanonical {inner : ValueType} {j : Json}
    (h : Reaches s principal type document.canonical inner j) : j.IsCanonical := by
  induction h with
  | whole => exact ⟨document, rfl⟩
  | listItem _ hitem ih | setItem _ hitem ih => exact ih.items _ hitem
  | entry _ hmember ih | property _ _ hmember _ _ ih => exact ih.members.2 _ hmember

/-- The elements of a set differ, and the keys of a map are those of an object in the document. -/
def ReadWell (s : Schema) (principal : Option Principal) (type : ValueType) (document : Json) :
    Value → Prop
  | .set items => Value.AllDiffer items
  | .map entries => ∃ key inner members,
      Reaches s principal type document (.map key inner) (.object members) ∧
      (members.map Prod.fst).mapM (key.parseText s) = .ok (entries.map Prod.fst)
  | _ => True

theorem readWell_of_isLeaf {v : Value} (h : v.isLeaf = true) :
    ReadWell s principal type document v := by
  cases v with
  | set items => cases h
  | map entries => cases h
  | _ => trivial

end

end ValueType

open ValueType (Reaches ReadWell readWell_of_isLeaf)

namespace Identities

/-- All that a session keeps of identities has the property throughout. -/
def Keeps (P : Value → Prop) (known : Option IdentityCache) : Prop :=
  ∀ cache ∈ known, ∀ key value, cache.entries.find? key = some value → value.Throughout P

section

variable {P : Value → Prop} {known : Option IdentityCache}

theorem Keeps.enter (h : Keeps P known) (name : String) : Keeps P (cached.enter name known) := by
  rintro _ hcache
  obtain ⟨cache, hmem, rfl⟩ := Option.mem_map.1 hcache
  exact h cache hmem

theorem Keeps.exit (h : Keeps P known) : Keeps P (cached.exit known) := by
  rintro _ hcache
  obtain ⟨cache, hmem, rfl⟩ := Option.mem_map.1 hcache
  exact h cache hmem

/-- An object takes over what has the property, and so has it throughout. -/
theorem throughout_merge (hobject : ∀ typeName properties, P (.object typeName properties))
    {old : Value} {content : Instance} (hold : old.Throughout P)
    (hcontent : ∀ entry ∈ content.properties, entry.2.Throughout P) :
    (IdentityCache.merge old (.ofInstance content)).Throughout P := by
  cases old with
  | object typeName properties =>
      apply Value.throughout_object (hobject _ _)
      intro entry hentry
      rcases Instance.mem_mergeMissing hentry with hentry | hentry
      · exact fun w hw => hold w (.property hw hentry)
      · exact hcontent entry hentry
  | _ => exact hold

theorem Keeps.interned (h : Keeps P known)
    (hobject : ∀ typeName properties, P (.object typeName properties)) {c : Container}
    {content : Instance} (hcontent : ∀ entry ∈ content.properties, entry.2.Throughout P) :
    (cached.interned c content known).1.Throughout P ∧
      Keeps P (cached.interned c content known).2 := by
  have hown : (Value.ofInstance content).Throughout P :=
    Value.throughout_object (hobject _ _) hcontent
  have hinsert : ∀ {cache : IdentityCache} {key : String} {v : Value} {hits : Nat},
      Keeps P (some cache) → v.Throughout P →
        Keeps P (some { cache with entries := cache.entries.insert key v, hits := hits }) := by
    intro cache key v hits hkept hv
    rintro _ ⟨⟩ other w hfind
    rw [NameMap.find?_insert] at hfind
    split at hfind
    · cases hfind
      exact hv
    · exact hkept cache rfl other w hfind
  unfold Identities.interned
  cases content.identity? c with
  | none => exact ⟨hown, h⟩
  | some key =>
      cases known with
      | none => exact ⟨hown, h⟩
      | some cache =>
          cases hfind : cache.entries.find? (cache.context.key key) with
          | none =>
              simp only [cached, IdentityCache.intern, hfind, Prod.map]
              exact ⟨hown, hinsert h hown⟩
          | some old =>
              have hmerged := throughout_merge hobject (h cache rfl _ old hfind) hcontent
              simp only [cached, IdentityCache.intern, hfind, Prod.map]
              exact ⟨hmerged, hinsert h hmerged⟩

end

section

variable {s : Schema} {principal : Option Principal} {root : ValueType} {document : Json}

/-- What was read is well read, and what is kept of it too. -/
def Well (s : Schema) (principal : Option Principal) (root : ValueType) (document : Json)
    (read : Value × Option IdentityCache) : Prop :=
  read.1.Throughout (ReadWell s principal root document) ∧
    Keeps (ReadWell s principal root document) read.2

theorem orNull_well {j : Json} {known : Option IdentityCache} {read : Value × Option IdentityCache}
    (hknown : Keeps (ReadWell s principal root document) known)
    {tree : Except Fault (Value × Option IdentityCache)}
    (htree : tree = .ok read → Well s principal root document read)
    (h : j.orNull known tree = .ok read) : Well s principal root document read := by
  unfold Json.orNull at h
  split at h
  · cases h
    exact ⟨Value.throughout_of_isLeaf (fun _ => readWell_of_isLeaf) rfl, hknown⟩
  · exact htree h

theorem readTree_leaf_well {type : ValueType} {j : Json} {known : Option IdentityCache}
    {read : Value × Option IdentityCache}
    (hknown : Keeps (ReadWell s principal root document) known)
    (h : (type.ofLeaf s j).map (fun v => (v, known)) = .ok read) :
    Well s principal root document read := by
  obtain ⟨v, hv, rfl⟩ := map_eq_ok_iff.1 h
  exact ⟨Value.throughout_of_isLeaf (fun _ => readWell_of_isLeaf) (ValueType.isLeaf_of_ofLeaf hv).1,
    hknown⟩

mutual

theorem readTree_well : ∀ (j : Json) {type : ValueType} {known : Option IdentityCache}
    {read : Value × Option IdentityCache}, Reaches s principal root document type j →
    Keeps (ReadWell s principal root document) known →
    cached.readTree s principal type j known = .ok read → Well s principal root document read
  | .object members, type, known, read, hreach, hknown, h => by
    cases type with
    | object typeName =>
        rw [readTree] at h
        obtain ⟨⟨c, tag⟩, hopened, h⟩ := bind_eq_ok_iff.1 h
        obtain ⟨⟨content, between⟩, hmembers, h⟩ := bind_eq_ok_iff.1 h
        cases h
        obtain ⟨hcontent, hbetween⟩ := readMembers_well members
          (fun member hmember htag p hp => hreach.property hopened hmember htag hp)
          (by simp [Instance.empty]) hknown hmembers
        exact hbetween.interned (fun _ _ => trivial) hcontent
    | map key inner =>
        rw [readTree] at h
        obtain ⟨⟨entries, between⟩, hentries, h⟩ := bind_eq_ok_iff.1 h
        cases h
        obtain ⟨hkeys, hvalues, hbetween⟩ := readEntries_well members
          (fun member hmember => hreach.entry hmember) hknown hentries
        refine ⟨Value.throughout_map ⟨key, inner, members, hreach, hkeys⟩ ?_ hvalues, hbetween⟩
        intro entry hentry
        obtain ⟨text, -, hread⟩ :=
          (mem_of_mapM_eq_ok hkeys entry.1).1 (List.mem_map_of_mem hentry)
        exact Value.throughout_of_isLeaf (fun _ => readWell_of_isLeaf)
          (ValueType.isLeaf_of_parseText hread)
    | _ =>
        rw [ValueType.readTree_leaf rfl] at h
        exact readTree_leaf_well hknown h
  | .array items, type, known, read, hreach, hknown, h => by
    cases type with
    | list inner =>
        rw [readTree] at h
        obtain ⟨⟨values, between⟩, hvalues, h⟩ := bind_eq_ok_iff.1 h
        cases h
        obtain ⟨hitems, hbetween⟩ :=
          readItems_well items (fun item hitem => hreach.listItem hitem) hknown hvalues
        exact ⟨Value.throughout_list trivial hitems, hbetween⟩
    | set inner =>
        rw [readTree] at h
        obtain ⟨⟨values, between⟩, hvalues, h⟩ := bind_eq_ok_iff.1 h
        cases h
        obtain ⟨hitems, hbetween⟩ :=
          readItems_well items (fun item hitem => hreach.setItem hitem) hknown hvalues
        refine ⟨Value.throughout_set (Value.allDiffer_distinct values) ?_, hbetween⟩
        intro item hitem
        rcases Value.mem_of_mem_distinct hitem with hitem | hitem
        · cases hitem
        · exact hitems item hitem
    | _ =>
        rw [ValueType.readTree_leaf rfl] at h
        exact readTree_leaf_well hknown h
  | .null, type, known, read, _, hknown, h | .bool _, type, known, read, _, hknown, h
  | .number _, type, known, read, _, hknown, h | .string _, type, known, read, _, hknown, h => by
    rw [ValueType.readTree_leaf (by cases type <;> rfl)] at h
    exact readTree_leaf_well hknown h

theorem readMembers_well : ∀ (members : List (String × Json)) {c : Container}
    {tag : Option String} {content : Instance} {known : Option IdentityCache}
    {read : Instance × Option IdentityCache},
    (∀ member ∈ members, tag ≠ some member.1 → ∀ p,
      Schema.submittable principal c member.1 = .ok (some p) →
        Reaches s principal root document p.type member.2) →
    (∀ entry ∈ content.properties, entry.2.Throughout (ReadWell s principal root document)) →
    Keeps (ReadWell s principal root document) known →
    cached.readMembers s principal c tag members content known = .ok read →
    (∀ entry ∈ read.1.properties, entry.2.Throughout (ReadWell s principal root document)) ∧
      Keeps (ReadWell s principal root document) read.2
  | [], c, tag, content, known, read, _, hcontent, hknown, h => by
    cases h
    exact ⟨hcontent, hknown⟩
  | (name, j) :: rest, c, tag, content, known, read, hreach, hcontent, hknown, h => by
    have hrest : ∀ member ∈ rest, tag ≠ some member.1 → ∀ p,
        Schema.submittable principal c member.1 = .ok (some p) →
          Reaches s principal root document p.type member.2 :=
      fun member hmember => hreach member (List.mem_cons_of_mem _ hmember)
    rw [readMembers] at h
    split at h
    · exact readMembers_well rest hrest hcontent hknown h
    · rename_i htag
      obtain ⟨answer, hanswer, h⟩ := bind_eq_ok_iff.1 h
      cases answer with
      | none => exact readMembers_well rest hrest hcontent hknown h
      | some p =>
          obtain ⟨⟨value, between⟩, hvalue, h⟩ := bind_eq_ok_iff.1 h
          have hentered := hknown.enter name
          obtain ⟨hwell, hbetween⟩ := orNull_well hentered
            (readTree_well j (hreach (name, j) List.mem_cons_self htag p hanswer) hentered) hvalue
          refine readMembers_well rest hrest ?_ hbetween.exit h
          rintro ⟨key, v⟩ hentry
          rcases NameMap.mem_insert hentry with heq | hentry
          · cases heq
            exact hwell
          · exact hcontent _ hentry

theorem readItems_well : ∀ (items : List Json) {type : ValueType} {known : Option IdentityCache}
    {read : List Value × Option IdentityCache},
    (∀ item ∈ items, Reaches s principal root document type item) →
    Keeps (ReadWell s principal root document) known →
    cached.readItems s principal type items known = .ok read →
    (∀ item ∈ read.1, item.Throughout (ReadWell s principal root document)) ∧
      Keeps (ReadWell s principal root document) read.2
  | [], type, known, read, _, hknown, h => by
    cases h
    exact ⟨by simp, hknown⟩
  | j :: rest, type, known, read, hreach, hknown, h => by
    rw [readItems] at h
    obtain ⟨⟨value, between⟩, hvalue, h⟩ := bind_eq_ok_iff.1 h
    obtain ⟨⟨values, last⟩, hvalues, h⟩ := bind_eq_ok_iff.1 h
    cases h
    obtain ⟨hwell, hbetween⟩ :=
      orNull_well hknown (readTree_well j (hreach j List.mem_cons_self) hknown) hvalue
    obtain ⟨hothers, hlast⟩ := readItems_well rest
      (fun item hitem => hreach item (List.mem_cons_of_mem _ hitem)) hbetween hvalues
    exact ⟨List.forall_mem_cons.2 ⟨hwell, hothers⟩, hlast⟩

theorem readEntries_well : ∀ (members : List (String × Json)) {key type : ValueType}
    {known : Option IdentityCache} {read : List (Value × Value) × Option IdentityCache},
    (∀ member ∈ members, Reaches s principal root document type member.2) →
    Keeps (ReadWell s principal root document) known →
    cached.readEntries s principal key type members known = .ok read →
    (members.map Prod.fst).mapM (key.parseText s) = .ok (read.1.map Prod.fst) ∧
      (∀ entry ∈ read.1, entry.2.Throughout (ReadWell s principal root document)) ∧
      Keeps (ReadWell s principal root document) read.2
  | [], key, type, known, read, _, hknown, h => by
    cases h
    exact ⟨rfl, by simp, hknown⟩
  | (text, j) :: rest, key, type, known, read, hreach, hknown, h => by
    rw [readEntries] at h
    obtain ⟨k, hk, h⟩ := bind_eq_ok_iff.1 h
    obtain ⟨⟨value, between⟩, hvalue, h⟩ := bind_eq_ok_iff.1 h
    obtain ⟨⟨entries, last⟩, hentries, h⟩ := bind_eq_ok_iff.1 h
    cases h
    obtain ⟨hwell, hbetween⟩ :=
      orNull_well hknown (readTree_well j (hreach (text, j) List.mem_cons_self) hknown) hvalue
    obtain ⟨hkeys, hothers, hlast⟩ := readEntries_well rest
      (fun member hmember => hreach member (List.mem_cons_of_mem _ hmember)) hbetween hentries
    refine ⟨?_, List.forall_mem_cons.2 ⟨hwell, hothers⟩, hlast⟩
    rw [List.map_cons, List.mapM_cons, hk, ok_bind, hkeys]
    rfl

end

end

end Identities

/-- Keys that are read of names, which stand once each, differ if no two names mean equal keys. -/
theorem Value.allDiffer_of_mapM_iff {read : String → Except Fault Value} {names : List String}
    {keys : List Value} (hnodup : names.Nodup) (h : names.mapM read = .ok keys) :
    AllDiffer keys ↔ ∀ m ∈ names, ∀ n ∈ names, m ≠ n → ∀ k l, read m = .ok k → read n = .ok l →
      k.same l = false := by
  have hget : ∀ (i : Nat) (k : Value),
      keys[i]? = some k ↔ ∃ name, names[i]? = some name ∧ read name = .ok k := by
    intro i k
    have hmap := congrArg (·[i]?) (mapM_eq_ok_iff.1 h)
    simp only [List.getElem?_map] at hmap
    constructor
    · intro hk
      rw [hk] at hmap
      obtain ⟨name, hname, hread⟩ := Option.map_eq_some_iff.1 hmap
      exact ⟨name, hname, hread⟩
    · rintro ⟨name, hname, hread⟩
      rw [hname, Option.map_some, hread] at hmap
      obtain ⟨other, hother, heq⟩ := Option.map_eq_some_iff.1 hmap.symm
      cases heq
      exact hother
  constructor
  · intro hdiffer m hm n hn hne k l hk hl
    obtain ⟨i, hi⟩ := List.getElem?_of_mem hm
    obtain ⟨j, hj⟩ := List.getElem?_of_mem hn
    refine hdiffer i j k l ?_ ((hget i k).2 ⟨m, hi, hk⟩) ((hget j l).2 ⟨n, hj, hl⟩)
    rintro rfl
    exact hne (Option.some.inj (hi.symm.trans hj))
  · intro hnames i j k l hne hk hl
    obtain ⟨m, hm, hk⟩ := (hget i k).1 hk
    obtain ⟨n, hn, hl⟩ := (hget j l).1 hl
    refine hnames m (List.mem_of_getElem? hm) n (List.mem_of_getElem? hn) ?_ k l hk hl
    rintro rfl
    obtain ⟨hlt, -⟩ := List.getElem?_eq_some_iff.1 hm
    exact hne ((List.getElem?_inj hlt hnodup).1 (hm.trans hn.symm))

namespace ValueType

/-- Sets that are read have no two equal elements. Maps that are read have the keys that the names
of an object in the document are read as, so no two of them are equal exactly if no two of these
names are read as equal keys. -/
theorem ofDocument_collections {s : Schema} {principal : Option Principal} {type : ValueType}
    {caching : Bool} {document : Json} {v : Value}
    (h : type.ofDocument s principal caching document = .ok v) :
    (∀ items, (Value.set items).Occurs v → Value.AllDiffer items) ∧
      ∀ entries, (Value.map entries).Occurs v → ∃ key inner members,
        Reaches s principal type document.canonical (.map key inner) (.object members) ∧
        (members.map Prod.fst).mapM (key.parseText s) = .ok (entries.map Prod.fst) ∧
        (Value.AllDiffer (entries.map Prod.fst) ↔
          ∀ m ∈ members.map Prod.fst, ∀ n ∈ members.map Prod.fst, m ≠ n → ∀ k l,
            key.parseText s m = .ok k → key.parseText s n = .ok l → k.same l = false) := by
  rw [ofDocument_eq] at h
  obtain ⟨read, hread, rfl⟩ := map_eq_ok_iff.1 h
  have hempty : Identities.Keeps (ReadWell s principal type document.canonical)
      (if caching then some .empty else none) := by
    intro cache hcache key value hfind
    cases caching with
    | false => cases hcache
    | true =>
        cases hcache
        cases hfind
  have hwell := (Identities.readTree_well _ .whole hempty hread).1
  refine ⟨fun items hitems => hwell _ hitems, fun entries hentries => ?_⟩
  obtain ⟨key, inner, members, hreach, hkeys⟩ := hwell _ hentries
  have hnodup : (members.map Prod.fst).Nodup :=
    List.Pairwise.imp String.ne_of_lt hreach.isCanonical.members.1
  exact ⟨key, inner, members, hreach, hkeys, Value.allDiffer_of_mapM_iff hnodup hkeys⟩

/-- A set in a map is read without the element that stands twice. -/
theorem ofDocument_collections_labels :
    (map string (set string)).ofDocument ⟨[]⟩ none false
        (.object [("x", .array [.string "a", .string "b", .string "a"])]) =
      .ok (.map [(.text "x", .set [.text "a", .text "b"])]) ∧
    Value.AllDiffer [.text "a", .text "b"] ∧
    ∃ key inner members,
      Reaches ⟨[]⟩ none (map string (set string))
        (Json.object [("x", .array [.string "a", .string "b", .string "a"])]).canonical
        (.map key inner) (.object members) ∧
      (members.map Prod.fst).mapM (key.parseText ⟨[]⟩) = .ok [.text "x"] := by
  have hdistinct : Value.distinct [] [.text "a", .text "b", .text "a"] =
      [.text "a", .text "b"] := by
    simp [Value.distinct, Value.same]
  have hread : (map string (set string)).ofDocument ⟨[]⟩ none false
      (.object [("x", .array [.string "a", .string "b", .string "a"])]) =
    .ok (.map [(.text "x", .set [.text "a", .text "b"])]) := by
    rw [← hdistinct]
    rfl
  obtain ⟨hsets, hmaps⟩ := ofDocument_collections hread
  obtain ⟨key, inner, members, hreach, hkeys, -⟩ := hmaps _ .whole
  exact ⟨hread, hsets _ (.entry .whole List.mem_cons_self), key, inner, members, hreach, hkeys⟩

/-- Two names of an object are read as one number, and the map has it twice for a key. -/
theorem ofDocument_equal_keys :
    (⟨[], []⟩ : SchemaDocument).build = .ok ⟨[]⟩ ∧
    (map (.scalar (.whole .integer)) string).ofDocument ⟨[]⟩ none false
        (.object [("1", .string "a"), ("01", .string "b")]) =
      .ok (.map [(.whole .integer ⟨1, by decide⟩, .text "b"),
        (.whole .integer ⟨1, by decide⟩, .text "a")]) ∧
    ¬Value.AllDiffer [.whole .integer ⟨1, by decide⟩, .whole .integer ⟨1, by decide⟩] := by
  refine ⟨rfl, rfl, fun hdiffer => ?_⟩
  have hsame := hdiffer 0 1 _ _ (by decide) rfl rfl
  simp [Value.same] at hsame

end ValueType

end ResourceQuery
