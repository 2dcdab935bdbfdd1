import ResourceQuery.Proofs.Schema.WellFormed
import ResourceQuery.Proofs.Session.Conforming
import ResourceQuery.Proofs.Session.Projected
/-!
# Writing and reading back

A value that conforms to its type is written, and what is written is read as the same value. The
document of a structure is put together from those of its parts, which are read one after the other
(`Conforms.passes`).
-/

namespace ResourceQuery

namespace Writing

variable {α β : Type}

theorem outcome_bind_of_ok {w : Writing α} {f : α → Writing β} {a : α}
    {output between : JsonOutput} (h : w.outcome output = (.ok a, between)) :
    (w >>= f).outcome output = (f a).outcome between := by
  change (ExceptT.run (w >>= f)).run output = _
  change (ExceptT.run w).run output = _ at h
  rw [ExceptT.run_bind, StateT.run_bind, h]
  rfl

theorem ext {w other : Writing α} (h : ∀ output, w.outcome output = other.outcome output) :
    w = other := funext h

end Writing

namespace Json

theorem canonicalItems_of_canonical {items : List Json} (h : ∀ j ∈ items, j.canonical = j) :
    canonicalItems items = items := by
  induction items with
  | nil => rfl
  | cons j rest ih =>
      rw [canonicalItems, h j (by simp), ih fun j hj => h j (by simp [hj])]

theorem canonicalMembers_of_canonical {members : List (String × Json)}
    (h : ∀ member ∈ members, member.2.canonical = member.2) :
    canonicalMembers members = members := by
  induction members with
  | nil => rfl
  | cons member rest ih =>
      rw [canonicalMembers, h member (by simp), ih fun member hmem => h member (by simp [hmem])]

/-- An object with sorted members stays as it is. -/
theorem canonical_object {members : NameMap Json} (hsorted : NameMap.Sorted members)
    (h : ∀ member ∈ members, member.2.canonical = member.2) :
    (object members).canonical = object members := by
  rw [canonical, canonicalMembers_of_canonical h, NameMap.ofList_sorted hsorted]

end Json

namespace ValueType

section Parts

variable {s : Schema} {type : ValueType}

/-! ## Collections -/

theorem writeItems_of_passes {f : Value → Json} {items : List Value}
    (h : ∀ item ∈ items, Passes s type item (f item)) (path : String) (before : List Json)
    (rest : List OpenOutput) (result : Option Json) :
    (Value.writeItems s {} items type path).outcome ⟨.array before :: rest, result⟩ =
      (.ok (), ⟨.array (before ++ items.map f) :: rest, result⟩) := by
  induction items generalizing before with
  | nil =>
      rw [Value.writeItems, List.map_nil, List.append_nil]
      rfl
  | cons item others ih =>
      have hemit : (JsonOutput.emit (f item)).outcome ⟨.array before :: rest, result⟩ =
          (.ok (), ⟨.array (before ++ [f item]) :: rest, result⟩) := rfl
      rw [Value.writeItems, (h item (by simp)).written, Writing.outcome_bind_of_ok hemit,
        ih (fun item hitem => h item (by simp [hitem])), List.append_assoc, List.singleton_append,
        List.map_cons]

theorem readItems_of_passes {f : Value → Json} {items : List Value}
    (h : ∀ item ∈ items, Passes s type item (f item)) :
    Identities.cached.readItems s none type (items.map f) none = .ok (items, none) := by
  induction items with
  | nil => rw [List.map_nil, Identities.readItems]
  | cons item others ih =>
      rw [List.map_cons, Identities.readItems, (h item (by simp)).read, ok_bind]
      simp only
      rw [ih fun item hitem => h item (by simp [hitem])]
      rfl

/-- What is written of a collection, whether it is a list or a set. -/
theorem collection_written {f : Value → Json} {items : List Value}
    (h : ∀ item ∈ items, Passes s type item (f item)) (path : String) :
    (do
      JsonOutput.beginCollection
      Value.writeItems s {} items type path
      JsonOutput.endCollection : Writing Unit) = JsonOutput.emit (.array (items.map f)) := by
  refine Writing.ext fun output => ?_
  have hbegin : JsonOutput.beginCollection.outcome output =
      (.ok (), ⟨.array [] :: output.stack, output.result⟩) := rfl
  rw [Writing.outcome_bind_of_ok hbegin,
    Writing.outcome_bind_of_ok (writeItems_of_passes h path [] output.stack output.result)]
  rfl

theorem collection_canonical {f : Value → Json} {items : List Value}
    (h : ∀ item ∈ items, Passes s type item (f item)) :
    (Json.array (items.map f)).canonical = .array (items.map f) := by
  rw [Json.canonical, Json.canonicalItems_of_canonical]
  intro j hj
  obtain ⟨item, hitem, rfl⟩ := List.mem_map.1 hj
  exact (h item hitem).canonical

theorem passes_list {f : Value → Json} {items : List Value}
    (h : ∀ item ∈ items, Passes s type item (f item)) :
    Passes s (.list type) (.list items) (.array (items.map f)) where
  written := collection_written h
  canonical := collection_canonical h
  read := by
    change Identities.cached.readTree s none (.list type) _ none = _
    rw [Identities.readTree, readItems_of_passes h]
    rfl

/-- Different values are all kept. -/
theorem distinct_of_pairwise {kept items : List Value}
    (h : (kept ++ items).Pairwise fun earlier later => earlier.same later = false) :
    Value.distinct kept items = kept ++ items := by
  induction items generalizing kept with
  | nil => rw [Value.distinct, List.append_nil]
  | cons item rest ih =>
      have hnew : (kept.any fun other => other.same item) = false := by
        rw [List.any_eq_false]
        intro other hother
        simp [(List.pairwise_append.1 h).2.2 other hother item (by simp)]
      rw [Value.distinct, hnew, if_neg (by decide), ih (by simpa using h), List.append_assoc,
        List.singleton_append]

theorem passes_set {f : Value → Json} {items : List Value}
    (h : ∀ item ∈ items, Passes s type item (f item))
    (hdistinct : items.Pairwise fun earlier later => earlier.same later = false) :
    Passes s (.set type) (.set items) (.array (items.map f)) where
  written := collection_written h
  canonical := collection_canonical h
  read := by
    change Identities.cached.readTree s none (.set type) _ none = _
    rw [Identities.readTree, readItems_of_passes h, ok_bind]
    simp only
    rw [distinct_of_pairwise (by simpa using hdistinct), List.nil_append]
    rfl

/-! ## Maps -/

variable {keyType : ValueType} {g : Value → String} {f : Value → Json}

theorem writeEntries_of_passes {entries : List (Value × Value)}
    (hkeys : ∀ entry ∈ entries, Value.keyText keyType entry.1 = .ok (g entry.1))
    (h : ∀ entry ∈ entries, Passes s type entry.2 (f entry.2)) (path : String)
    (before : NameMap Json) (pending : Option String) (rest : List OpenOutput)
    (result : Option Json) :
    ∃ pending', (Value.writeEntries s {} entries keyType type path).outcome
        ⟨.object before pending :: rest, result⟩ =
      (.ok (), ⟨.object ((entries.map fun entry => (g entry.1, f entry.2)).foldl
        (fun m entry => m.insert entry.1 entry.2) before) pending' :: rest, result⟩) := by
  induction entries generalizing before pending with
  | nil =>
      rw [Value.writeEntries, List.map_nil, List.foldl_nil]
      exact ⟨pending, rfl⟩
  | cons entry others ih =>
      obtain ⟨key, item⟩ := entry
      have hemit : (JsonOutput.emit (f item)).outcome
          ⟨.object before (some (g key)) :: rest, result⟩ =
        (.ok (), ⟨.object (before.insert (g key) (f item)) none :: rest, result⟩) := rfl
      have hname : (JsonOutput.setName (g key)).outcome ⟨.object before pending :: rest, result⟩ =
          (.ok (), ⟨.object before (some (g key)) :: rest, result⟩) := rfl
      obtain ⟨pending', hothers⟩ := ih (fun entry hentry => hkeys entry (by simp [hentry]))
        (fun entry hentry => h entry (by simp [hentry])) (before.insert (g key) (f item)) none
      refine ⟨pending', ?_⟩
      rw [Value.writeEntries, hkeys (key, item) (by simp), (h (key, item) (by simp)).written]
      change (JsonOutput.setName (g key) >>= fun _ => _).outcome _ = _
      rw [Writing.outcome_bind_of_ok hname, Writing.outcome_bind_of_ok hemit, hothers]
      rfl

theorem readEntries_of_passes {entries : List (Value × Value)}
    (hkeys : ∀ entry ∈ entries, keyType.parseText s (g entry.1) = .ok entry.1)
    (h : ∀ entry ∈ entries, Passes s type entry.2 (f entry.2)) :
    Identities.cached.readEntries s none keyType type
      (entries.map fun entry => (g entry.1, f entry.2)) none = .ok (entries, none) := by
  induction entries with
  | nil => rw [List.map_nil, Identities.readEntries]
  | cons entry others ih =>
      rw [List.map_cons, Identities.readEntries, hkeys entry (by simp), ok_bind,
        (h entry (by simp)).read, ok_bind]
      simp only
      rw [ih (fun entry hentry => hkeys entry (by simp [hentry]))
        fun entry hentry => h entry (by simp [hentry])]
      rfl

theorem passes_map {entries : List (Value × Value)}
    (htexts : ∀ entry ∈ entries, Value.keyText keyType entry.1 = .ok (g entry.1))
    (hkeys : ∀ entry ∈ entries, keyType.parseText s (g entry.1) = .ok entry.1)
    (h : ∀ entry ∈ entries, Passes s type entry.2 (f entry.2))
    (hsorted : NameMap.Sorted (entries.map fun entry => (g entry.1, f entry.2))) :
    Passes s (.map keyType type) (.map entries)
      (.object (entries.map fun entry => (g entry.1, f entry.2))) where
  written path := by
    refine Writing.ext fun output => ?_
    obtain ⟨pending, hentries⟩ :=
      writeEntries_of_passes htexts h path [] none output.stack output.result
    rw [← NameMap.ofList, NameMap.ofList_sorted hsorted] at hentries
    have hbegin : JsonOutput.beginMap.outcome output =
        (.ok (), ⟨.object [] none :: output.stack, output.result⟩) := rfl
    change (do
      JsonOutput.beginMap
      Value.writeEntries s {} entries keyType type path
      JsonOutput.endMap : Writing Unit).outcome output = _
    rw [Writing.outcome_bind_of_ok hbegin, Writing.outcome_bind_of_ok hentries]
    rfl
  canonical := by
    refine Json.canonical_object hsorted fun member hmember => ?_
    obtain ⟨entry, hentry, rfl⟩ := List.mem_map.1 hmember
    exact (h entry hentry).canonical
  read := by
    change Identities.cached.readTree s none (.map keyType type) _ none = _
    rw [Identities.readTree, readEntries_of_passes hkeys h]
    rfl

end Parts

/-! ## Objects -/

section Objects

variable {s : Schema} {f : String → Json} {properties : NameMap Value}

theorem writeProperties_of_passes {ps : List Property}
    (h : ∀ p ∈ ps, ∀ v, NameMap.find? p.name properties = some v →
      p.gettable = true ∧ Passes s p.type v (f p.name))
    (path : String) (before : NameMap Json) (pending : Option String) (rest : List OpenOutput)
    (result : Option Json) :
    ∃ pending', (ps.forM (Value.writeProperty {} path
        (Value.writableProperties s {} properties))).outcome
        ⟨.object before pending :: rest, result⟩ =
      (.ok (), ⟨.object (ps.foldl (fun m p =>
        if (NameMap.find? p.name properties).isSome then m.insert p.name (f p.name) else m) before)
        pending' :: rest, result⟩) := by
  induction ps generalizing before pending with
  | nil => exact ⟨pending, rfl⟩
  | cons p others ih =>
      have hothers := fun p hp => h p (List.mem_cons_of_mem _ hp)
      have hproperty : ∃ pending', (Value.writeProperty {} path
          (Value.writableProperties s {} properties) p).outcome
          ⟨.object before pending :: rest, result⟩ =
        (.ok (), ⟨.object (if (NameMap.find? p.name properties).isSome
          then before.insert p.name (f p.name) else before) pending' :: rest, result⟩) := by
        unfold Value.writeProperty
        simp only [Value.find?_writableProperties]
        cases hvalue : NameMap.find? p.name properties with
        | none =>
            refine ⟨pending, ?_⟩
            split <;> rfl
        | some v =>
            obtain ⟨hgettable, hpasses⟩ := h p (by simp) v hvalue
            have hadmits : ∀ path, ({} : WriteOptions).admits path p = true := by
              intro path
              simp [WriteOptions.admits, hgettable, AccessRules.permits]
            refine ⟨none, ?_⟩
            rw [if_pos (hadmits _)]
            simp only [Option.map_some, Bool.and_false, Bool.false_eq_true, if_false,
              hpasses.written]
            rfl
      obtain ⟨between, hfirst⟩ := hproperty
      obtain ⟨pending', hrest⟩ := ih hothers (if (NameMap.find? p.name properties).isSome
        then before.insert p.name (f p.name) else before) between
      refine ⟨pending', ?_⟩
      change (Value.writeProperty {} path _ p >>= fun _ => others.forM _).outcome _ = _
      rw [Writing.outcome_bind_of_ok hfirst, hrest, List.foldl_cons]

theorem find?_written (ps : List Property) (before : NameMap Json) (name : String) :
    (ps.foldl (fun m p =>
        if (NameMap.find? p.name properties).isSome then m.insert p.name (f p.name) else m)
        before).find? name =
      if (∃ p ∈ ps, p.name = name) ∧ (NameMap.find? name properties).isSome then some (f name)
      else before.find? name := by
  induction ps generalizing before with
  | nil => simp
  | cons p others ih =>
      rw [List.foldl_cons, ih]
      by_cases hname : p.name = name
      · subst hname
        by_cases hsome : (NameMap.find? p.name properties).isSome
        · simp [hsome]
        · simp [hsome]
      · by_cases hsome : (NameMap.find? p.name properties).isSome
        · simp [hsome, hname, NameMap.find?_insert_ne _ _ hname]
        · simp [hsome, hname]

theorem sorted_written (ps : List Property) {before : NameMap Json}
    (h : NameMap.Sorted before) :
    NameMap.Sorted (ps.foldl (fun m p =>
      if (NameMap.find? p.name properties).isSome then m.insert p.name (f p.name) else m)
      before) := by
  induction ps generalizing before with
  | nil => exact h
  | cons p others ih =>
      rw [List.foldl_cons]
      split
      · exact ih (NameMap.sorted_insert _ _ h)
      · exact ih h

/-- The members of an object, with the one that tells its variant if there is one. -/
def taggedMembers (opening : Option (String × String)) (members : NameMap Json) : NameMap Json :=
  match opening with
  | some (name, tag) => members.insert name (.string tag)
  | none => members

theorem sorted_taggedMembers (opening : Option (String × String)) {members : NameMap Json}
    (h : NameMap.Sorted members) : NameMap.Sorted (taggedMembers opening members) := by
  unfold taggedMembers
  split
  · exact NameMap.sorted_insert _ _ h
  · exact h

theorem mem_taggedMembers {opening : Option (String × String)} {members : NameMap Json}
    {member : String × Json} (h : member ∈ taggedMembers opening members) :
    (∃ tag, member.2 = .string tag) ∨ member ∈ members := by
  unfold taggedMembers at h
  split at h
  · rename_i name tag
    rcases NameMap.mem_insert h with heq | hmem
    · exact .inl ⟨tag, congrArg Prod.snd heq⟩
    · exact .inr hmem
  · exact .inr h

/-- Without the member that tells the variant, the others are left. -/
theorem filter_taggedMembers {discriminator : Option String} {variant : Bool} {tag : String}
    {members : NameMap Json}
    (hfresh : ∀ name, discriminator = some name → name ∉ NameMap.keys members) :
    (taggedMembers (if variant then discriminator.map fun name => (name, tag) else none)
      members).filter (fun member => discriminator ≠ some member.1) = members := by
  cases discriminator with
  | none => cases variant <;> exact List.filter_eq_self.2 (by simp)
  | some name =>
      cases variant with
      | true => simpa [taggedMembers] using NameMap.filter_insert (.string tag) (hfresh name rfl)
      | false =>
          refine List.filter_eq_self.2 fun member hmember => ?_
          have hne : name ≠ member.1 := fun heq =>
            hfresh name rfl (heq ▸ List.mem_map_of_mem hmember)
          simpa using hne

theorem find?_map_members (name : String) :
    NameMap.find? name (properties.map fun entry => (entry.1, f entry.1)) =
      (NameMap.find? name properties).map fun _ => f name := by
  induction properties with
  | nil => rfl
  | cons entry rest ih =>
      rw [List.map_cons, NameMap.find?, NameMap.find?]
      split
      · rename_i heq
        rw [← heq]
        rfl
      · exact ih

theorem sorted_map_members (h : NameMap.Sorted properties) :
    NameMap.Sorted (properties.map fun entry => (entry.1, f entry.1)) := by
  unfold NameMap.Sorted NameMap.keys at h ⊢
  rwa [List.map_map]

/-- What is written in the order of the container stands in the order of the names. -/
theorem written_eq {opening : Option (String × String)} {ps : List Property}
    (hnamed : ∀ entry ∈ properties, ∃ p ∈ ps, p.name = entry.1)
    (hfresh : ∀ name tag, opening = some (name, tag) → ∀ p ∈ ps, p.name ≠ name)
    (hsorted : NameMap.Sorted properties) :
    ps.foldl (fun (m : NameMap Json) p =>
        if (NameMap.find? p.name properties).isSome then m.insert p.name (f p.name) else m)
        (opening.map fun (name, tag) => (name, Json.string tag)).toList =
      taggedMembers opening (properties.map fun entry => (entry.1, f entry.1)) := by
  have hopening : NameMap.Sorted
      (opening.map fun (name, tag) => (name, Json.string tag)).toList := by
    cases opening with
    | none => exact List.Pairwise.nil
    | some tag => exact List.pairwise_singleton _ _
  refine (sorted_written ps hopening).ext
    (sorted_taggedMembers opening (sorted_map_members hsorted)) fun name => ?_
  rw [find?_written]
  have hexists : (NameMap.find? name properties).isSome → ∃ p ∈ ps, p.name = name := by
    intro hsome
    obtain ⟨v, hv⟩ := Option.isSome_iff_exists.1 hsome
    exact hnamed (name, v) (NameMap.mem_of_find? hv)
  have hplain : (if (∃ p ∈ ps, p.name = name) ∧ (NameMap.find? name properties).isSome
      then some (f name) else none) =
      NameMap.find? name (properties.map fun entry => (entry.1, f entry.1)) := by
    rw [find?_map_members]
    cases hfind : NameMap.find? name properties with
    | none => simp
    | some v =>
        rw [hfind] at hexists
        rw [if_pos ⟨hexists rfl, rfl⟩]
        rfl
  cases opening with
  | none => exact hplain
  | some opened =>
      obtain ⟨own, tag⟩ := opened
      by_cases hown : own = name
      · subst hown
        rw [if_neg fun hall => ?_]
        · simp [taggedMembers, NameMap.find?]
        · obtain ⟨p, hp, hname⟩ := hall.1
          exact hfresh own tag rfl p hp hname
      · rw [taggedMembers, NameMap.find?_insert_ne _ _ hown, ← hplain]
        simp [NameMap.find?, hown]

/-- Members are read one after the other, all but the one that tells the variant. -/
theorem readMembers_filter (c : Container) (tag : Option String) (members : List (String × Json))
    (content : Instance) (known : Option IdentityCache) :
    Identities.cached.readMembers s none c tag
        (members.filter fun member => tag ≠ some member.1) content known =
      Identities.cached.readMembers s none c tag members content known := by
  induction members generalizing content known with
  | nil => rfl
  | cons member rest ih =>
      obtain ⟨name, j⟩ := member
      by_cases htag : tag = some name
      · rw [List.filter_cons_of_neg (by simpa using htag), ih, Identities.readMembers, if_pos htag]
      · rw [List.filter_cons_of_pos (by simpa using htag), Identities.readMembers,
          Identities.readMembers]
        simp only [ih]

theorem readMembers_of_passes {c : Container} {tag : Option String} {typeName : String}
    {before rest : NameMap Value}
    (h : ∀ entry ∈ rest, tag ≠ some entry.1 ∧ ∃ p,
      Schema.submittable none c entry.1 = .ok (some p) ∧ Passes s p.type entry.2 (f entry.1))
    (hsorted : NameMap.Sorted (before ++ rest)) :
    Identities.cached.readMembers s none c tag (rest.map fun entry => (entry.1, f entry.1))
      ⟨typeName, before⟩ none = .ok (⟨typeName, before ++ rest⟩, none) := by
  induction rest generalizing before with
  | nil => rw [List.map_nil, Identities.readMembers, List.append_nil]
  | cons entry others ih =>
      obtain ⟨name, v⟩ := entry
      obtain ⟨htag, p, hp, hpasses⟩ := h (name, v) (by simp)
      have hsorted' : NameMap.Sorted ((before ++ [(name, v)]) ++ others) := by simpa using hsorted
      have hothers := ih (fun entry hentry => h entry (by simp [hentry])) hsorted'
      have henter : Identities.cached.enter name none = none := rfl
      have hexit : Identities.cached.exit none = none := rfl
      rw [List.map_cons, Identities.readMembers, if_neg htag, hp, ok_bind]
      simp only [henter]
      rw [hpasses.read, ok_bind]
      simp only [Instance.set, hexit]
      rw [NameMap.insert_last hsorted, hothers, List.append_assoc, List.singleton_append]

/-- The members tell the container that the object was written with. -/
theorem openMembers_tagged {declaredName : String} {declared c : Container}
    {members : NameMap Json} (hdeclared : s.container declaredName = .ok declared)
    (hconcrete : s.concrete declared c.name = .ok c)
    (hvariant : c.isVariant = true → (declared.discriminator?.map Property.name).isSome = true)
    (hplain : c.isVariant = false → c = declared)
    (hfresh : ∀ name, declared.discriminator?.map Property.name = some name →
      name ∉ NameMap.keys members) :
    s.openMembers declaredName (taggedMembers
        (if c.isVariant then (declared.discriminator?.map Property.name).map
          fun name => (name, c.name) else none) members) =
      .ok (c, declared.discriminator?.map Property.name) := by
  rw [Schema.openMembers, hdeclared, ok_bind]
  generalize declared.discriminator?.map Property.name = discriminator at *
  cases discriminator with
  | none =>
      cases hc : c.isVariant with
      | true => cases hvariant hc
      | false =>
          rw [hplain hc]
          rfl
  | some name =>
      cases hc : c.isVariant with
      | true =>
          have htag : Json.tag? (some name) (taggedMembers (some (name, c.name)) members) =
              .ok (some c.name) := by
            rw [Json.tag?, taggedMembers, NameMap.find?_insert_self]
          rw [if_pos rfl, Option.map_some]
          simp only [htag, ok_bind, hconcrete]
          rfl
      | false =>
          have htag : Json.tag? (some name) (taggedMembers none members) = .ok none := by
            rw [Json.tag?, taggedMembers, NameMap.find?_eq_none (hfresh name rfl)]
          rw [if_neg (by decide), hplain hc]
          simp only [htag, ok_bind]
          rfl

/-- What the parts of an object are to have, which is written with a container. -/
structure HasParts (s : Schema) (discriminator : Option String) (c : Container)
    (properties : NameMap Value) (f : String → Json) : Prop where
  sorted : NameMap.Sorted properties
  parts : ∀ entry ∈ properties, ∃ p, c.property? entry.1 = some p ∧ p.gettable = true ∧
    p.settable = true ∧ discriminator ≠ some entry.1 ∧ Passes s p.type entry.2 (f entry.1)

theorem HasParts.fresh {discriminator : Option String} {c : Container}
    (h : HasParts s discriminator c properties f) :
    ∀ name, discriminator = some name →
      name ∉ NameMap.keys (properties.map fun entry => (entry.1, f entry.1)) := by
  intro name hname hmem
  obtain ⟨member, hmember, rfl⟩ := List.mem_map.1 hmem
  obtain ⟨entry, hentry, rfl⟩ := List.mem_map.1 hmember
  obtain ⟨p, -, -, -, hne, -⟩ := h.parts entry hentry
  exact hne hname

/-- An object is written with its properties in the order of their names. -/
theorem HasParts.written {declaredName : String} {declared c : Container}
    (h : HasParts s (declared.discriminator?.map Property.name) c properties f)
    (hnamed : (c.properties.map Property.name).Nodup)
    (hdeclared : s.container declaredName = .ok declared)
    (hconcrete : s.concrete declared c.name = .ok c) (path : String) :
    Value.writeObject s {} declaredName c.name path (Value.writableProperties s {} properties) =
      JsonOutput.emit (.object (taggedMembers (if c.isVariant then
        (declared.discriminator?.map Property.name).map fun name => (name, c.name) else none)
        (properties.map fun entry => (entry.1, f entry.1)))) := by
  refine Writing.ext fun output => ?_
  have hbegin : ∀ opening, (JsonOutput.beginObject opening).outcome output =
      (.ok (), ⟨.object (opening.map fun (name, tag) => (name, Json.string tag)).toList none ::
        output.stack, output.result⟩) := fun _ => rfl
  have hlift : ∀ d, (Writing.lift (.ok d : Except Fault Container)).outcome output =
      (.ok d, output) := fun _ => rfl
  unfold Value.writeObject
  rw [hdeclared, Writing.outcome_bind_of_ok (hlift declared), hconcrete,
    Writing.outcome_bind_of_ok (hlift c)]
  simp only
  rw [Writing.outcome_bind_of_ok (hbegin _)]
  generalize hdiscriminator : declared.discriminator?.map Property.name = discriminator at h ⊢
  have hwritten : ∀ p ∈ c.properties.filter fun p => discriminator ≠ some p.name,
      ∀ v, NameMap.find? p.name properties = some v →
        p.gettable = true ∧ Passes s p.type v (f p.name) := by
    intro p hp v hv
    obtain ⟨q, hq, hgettable, -, -, hpasses⟩ := h.parts _ (NameMap.mem_of_find? hv)
    rw [Schema.property?_of_mem hnamed (List.mem_filter.1 hp).1] at hq
    cases hq
    exact ⟨hgettable, hpasses⟩
  have hall : ∀ entry ∈ properties,
      ∃ p ∈ c.properties.filter fun p => discriminator ≠ some p.name, p.name = entry.1 := by
    intro entry hentry
    obtain ⟨p, hp, -, -, hne, -⟩ := h.parts entry hentry
    obtain ⟨hpmem, hpname⟩ := Schema.property?_some hp
    exact ⟨p, List.mem_filter.2 ⟨hpmem, by simpa [hpname] using hne⟩, hpname⟩
  have hopening : ∀ name tag, (if c.isVariant then
        discriminator.map fun name => (name, c.name) else none) = some (name, tag) →
      ∀ p ∈ c.properties.filter fun p => discriminator ≠ some p.name, p.name ≠ name := by
    intro name tag hopening p hp hname
    split at hopening
    · obtain ⟨own, hown, heq⟩ := Option.map_eq_some_iff.1 hopening
      cases heq
      exact absurd (hown.trans (congrArg some hname.symm)) (by simpa using (List.mem_filter.1 hp).2)
    · cases hopening
  obtain ⟨pending, hrun⟩ := writeProperties_of_passes hwritten path _ none
    output.stack output.result
  rw [Writing.outcome_bind_of_ok hrun, written_eq hall hopening h.sorted]
  rfl

theorem HasParts.canonical {discriminator : Option String} {c : Container}
    (h : HasParts s discriminator c properties f) (opening : Option (String × String)) :
    (Json.object (taggedMembers opening
      (properties.map fun entry => (entry.1, f entry.1)))).canonical =
      .object (taggedMembers opening (properties.map fun entry => (entry.1, f entry.1))) := by
  refine Json.canonical_object (sorted_taggedMembers _ (sorted_map_members h.sorted))
    fun member hmember => ?_
  rcases mem_taggedMembers hmember with ⟨tag, htag⟩ | hmem
  · rw [htag]
    rfl
  · obtain ⟨entry, hentry, rfl⟩ := List.mem_map.1 hmem
    obtain ⟨p, -, -, -, -, hpasses⟩ := h.parts entry hentry
    exact hpasses.canonical

/-- An object is read with the container that its members tell. -/
theorem HasParts.read {discriminator : Option String} {declaredName : String} {c : Container}
    (h : HasParts s discriminator c properties f)
    (hopen : s.openMembers declaredName (taggedMembers (if c.isVariant then
        discriminator.map fun name => (name, c.name) else none)
        (properties.map fun entry => (entry.1, f entry.1))) = .ok (c, discriminator)) :
    Identities.cached.readTree s none (.object declaredName)
        (.object (taggedMembers (if c.isVariant then
          discriminator.map fun name => (name, c.name) else none)
          (properties.map fun entry => (entry.1, f entry.1)))) none =
      .ok (.object c.name properties, none) := by
  have hread : ∀ entry ∈ properties, discriminator ≠ some entry.1 ∧ ∃ p,
      Schema.submittable none c entry.1 = .ok (some p) ∧
        Passes s p.type entry.2 (f entry.1) := by
    intro entry hentry
    obtain ⟨p, hp, -, hsettable, hne, hpasses⟩ := h.parts entry hentry
    refine ⟨hne, p, ?_, hpasses⟩
    rw [Schema.submittable, hp]
    simp [hsettable, AccessRules.permits]
  have hsorted : NameMap.Sorted ([] ++ properties) := h.sorted
  rw [Identities.readTree, hopen, ok_bind]
  simp only
  rw [← readMembers_filter, filter_taggedMembers h.fresh, Instance.empty,
    readMembers_of_passes hread hsorted, ok_bind]
  simp only [List.nil_append]
  rw [Identities.interned]
  split <;> rfl

theorem passes_object (hs : s.Coherent) (hmarked : s.Marked) {declaredName typeName : String}
    {declared c : Container} (hdeclared : s.container declaredName = .ok declared)
    (hconcrete : s.concrete declared typeName = .ok c) (hsorted : NameMap.Sorted properties)
    (hproperties : ∀ entry ∈ properties, ∃ p ∈ c.properties, p.name = entry.1 ∧
      p.gettable = true ∧ p.settable = true ∧ p.isDiscriminator = false)
    (h : ∀ name v p, NameMap.find? name properties = some v → c.property? name = some p →
      Passes s p.type v (f name)) :
    ∃ j, Passes s (.object declaredName) (.object typeName properties) j := by
  obtain ⟨hdeclaredMem, hdeclaredName⟩ := Schema.container_ok hdeclared
  have hdeclared? : s.container? declaredName = some declared := by
    rw [← hdeclaredName, Schema.container?_of_mem hs.outlined hdeclaredMem]
  obtain ⟨hcmem, rfl, hunder, hcases⟩ := hs.concrete_cases hdeclared? hconcrete
  have hparts : HasParts s (declared.discriminator?.map Property.name) c properties f := by
    refine ⟨hsorted, fun entry hentry => ?_⟩
    obtain ⟨p, hp, hname, hgettable, hsettable, hplain⟩ := hproperties entry hentry
    have hfound := Schema.property?_of_mem (hs.named c hcmem) hp
    have hne := hs.ne_discriminator hcmem hunder hp hplain
    rw [hname] at hfound hne
    have hpasses := h entry.1 entry.2 p (NameMap.find?_of_mem hsorted hentry) hfound
    exact ⟨p, hfound, hgettable, hsettable, hne, hpasses⟩
  have hvariant : c.isVariant = true →
      (declared.discriminator?.map Property.name).isSome = true := by
    intro hc
    rw [Option.isSome_map]
    rcases hcases with rfl | hbase
    · exact hmarked c hcmem (.inr hc)
    · exact hmarked declared hdeclaredMem
        (.inl (Schema.isPolymorphic_of_variant hs.outlined hcmem hdeclaredMem hbase rfl))
  have hplain : c.isVariant = false → c = declared := by
    intro hnot
    rcases hcases with rfl | hbase
    · rfl
    · simp [Container.isVariant, hbase] at hnot
  have hopen := openMembers_tagged hdeclared hconcrete hvariant hplain hparts.fresh
  exact ⟨_, hparts.written (hs.named c hcmem) hdeclared hconcrete, hparts.canonical _,
    hparts.read hopen⟩

end Objects

/-! ## Values -/

theorem passes_part {s : Schema} {type : ValueType} {v : Value}
    (h : v ≠ .null → ∃ j, Passes s type v j) : ∃ j, Passes s type v j := by
  by_cases hv : v = .null
  · exact ⟨.null, hv ▸ passes_null s type⟩
  · exact h hv

theorem passes_items {s : Schema} {type : ValueType} {items : List Value}
    (h : ∀ item ∈ items, item ≠ .null → ∃ j, Passes s type item j) :
    ∃ f : Value → Json, ∀ item ∈ items, Passes s type item (f item) := by
  have hparts : ∀ item, ∃ j, item ∈ items → Passes s type item j := by
    intro item
    by_cases hitem : item ∈ items
    · obtain ⟨j, hj⟩ := passes_part (h item hitem)
      exact ⟨j, fun _ => hj⟩
    · exact ⟨.null, fun hmem => absurd hmem hitem⟩
  choose f hf using hparts
  exact ⟨f, hf⟩

/-- The texts of keys, as a function of the key. -/
theorem exists_text {key : ValueType} {entries : List (Value × Value)} {texts : List String}
    (h : entries.mapM (fun entry => key.toText entry.1) = .ok texts) :
    ∃ g : Value → String, (∀ entry ∈ entries, key.toText entry.1 = .ok (g entry.1)) ∧
      entries.map (fun entry => g entry.1) = texts := by
  rw [mapM_eq_ok_iff] at h
  refine ⟨fun k => (key.toText k).toOption.getD "", ?_, ?_⟩
  · intro entry hentry
    have hmem : key.toText entry.1 ∈ texts.map Except.ok := h ▸ List.mem_map_of_mem hentry
    obtain ⟨text, -, htext⟩ := List.mem_map.1 hmem
    simp only [← htext]
    rfl
  · calc
      entries.map (fun entry => (key.toText entry.1).toOption.getD "") =
          (entries.map fun entry => key.toText entry.1).map fun x => x.toOption.getD "" := by
        rw [List.map_map]
        rfl
      _ = (texts.map Except.ok).map fun x : Except Fault String => x.toOption.getD "" := by rw [h]
      _ = texts := by
        rw [List.map_map]
        exact List.map_id _

/-- Keys in the order of their texts, which are different, give sorted members. -/
theorem keys_sorted {s : Schema} {key : ValueType} {entries : List (Value × Value)}
    {texts : List String} {g : Value → String}
    (hkeys : ∀ entry ∈ entries, key.parseText s (g entry.1) = .ok entry.1)
    (hdistinct : (entries.map Prod.fst).Nodup)
    (htexts : entries.map (fun entry => g entry.1) = texts)
    (hsorted : texts.Pairwise (· ≤ ·)) (f : Value → Json) :
    NameMap.Sorted (entries.map fun entry => (g entry.1, f entry.2)) := by
  have hinjective : ∀ k ∈ entries.map Prod.fst, ∀ l ∈ entries.map Prod.fst, g k = g l → k = l := by
    intro k hk l hl heq
    obtain ⟨first, hfirst, rfl⟩ := List.mem_map.1 hk
    obtain ⟨second, hsecond, rfl⟩ := List.mem_map.1 hl
    have hread := hkeys first hfirst
    rw [heq, hkeys second hsecond] at hread
    exact (Except.ok.inj hread).symm
  have hnodup : texts.Nodup := by
    rw [← htexts]
    simpa [Function.comp_def] using List.Nodup.map_on hinjective hdistinct
  have hnames : NameMap.keys (entries.map fun entry => (g entry.1, f entry.2)) = texts := by
    rw [NameMap.keys, List.map_map, ← htexts]
    rfl
  rw [NameMap.Sorted, hnames]
  refine (hsorted.and hnodup).imp fun {a b} h => ?_
  by_contra hlt
  exact h.2 (String.le_antisymm h.1 (String.not_lt.1 hlt))

/-- A value that conforms to its type passes through a document. -/
theorem Conforms.passes {s : Schema} (hs : s.Coherent) (hmarked : s.Marked) {type : ValueType}
    {v : Value} (h : Conforms s type v) : ∃ j, Passes s type v j := by
  induction h with
  | scalar h => exact passes_scalar h
  | enum h => exact ⟨_, passes_enum s h⟩
  | reference hread haccepts hyears => exact ⟨_, passes_reference hread haccepts hyears⟩
  | list _ ih =>
      obtain ⟨f, hf⟩ := passes_items ih
      exact ⟨_, passes_list hf⟩
  | set _ hdistinct ih =>
      obtain ⟨f, hf⟩ := passes_items ih
      exact ⟨_, passes_set hf hdistinct⟩
  | @map key inner entries texts hkeys _ hdistinct htexts hsorted _ ih =>
      have hvalues : ∀ item ∈ entries.map Prod.snd, item ≠ .null →
          ∃ j, Passes s inner item j := by
        intro item hitem
        obtain ⟨entry, hentry, rfl⟩ := List.mem_map.1 hitem
        exact ih entry hentry
      obtain ⟨f, hf⟩ := passes_items hvalues
      obtain ⟨g, hg, htexts⟩ := exists_text htexts
      have hparse : ∀ entry ∈ entries, key.parseText s (g entry.1) = .ok entry.1 :=
        fun entry hentry => (hkeys entry hentry).parseText (hg entry hentry)
      have hkeyText : ∀ entry ∈ entries, Value.keyText key entry.1 = .ok (g entry.1) :=
        fun entry hentry => (hkeys entry hentry).keyText.trans (hg entry hentry)
      exact ⟨_, passes_map hkeyText hparse
        (fun entry hentry => hf entry.2 (List.mem_map_of_mem hentry))
        (keys_sorted hparse hdistinct htexts hsorted f)⟩
  | @object declaredName typeName declared c properties hdeclared hconcrete hsorted hproperties _
      ih =>
      have hparts : ∀ name, ∃ j, ∀ v p, NameMap.find? name properties = some v →
          c.property? name = some p → Passes s p.type v j := by
        intro name
        cases hfind : NameMap.find? name properties with
        | none => exact ⟨.null, fun v p hv => by cases hv⟩
        | some v =>
            cases hproperty : c.property? name with
            | none => exact ⟨.null, fun _ p _ hp => by cases hp⟩
            | some p =>
                obtain ⟨hp, hname⟩ := Schema.property?_some hproperty
                obtain ⟨j, hj⟩ := passes_part (ih (name, v) (NameMap.mem_of_find? hfind) p hp hname)
                refine ⟨j, fun w q hw hq => ?_⟩
                cases hw
                cases hq
                exact hj
      choose f hf using hparts
      exact passes_object hs hmarked hdeclared hconcrete hsorted hproperties hf

/-- What is written of a value that conforms to its type is read as that value. -/
theorem ofDocument_document {d : SchemaDocument} {s : Schema} (hbuild : d.build = .ok s)
    {type : ValueType} {v : Value} (h : Conforms s type v) :
    ∃ document, type.document s {} v = .ok document ∧
      type.ofDocument s none false document = .ok v := by
  obtain ⟨j, hj⟩ := h.passes (SchemaDocument.build_coherent hbuild)
    (SchemaDocument.build_marked hbuild)
  refine ⟨j, ?_, ?_⟩
  · rw [document, write, hj.written]
    rfl
  · rw [ofDocument_eq, hj.canonical, if_neg (by decide), hj.readTree h.ne_null]
    rfl

/-- A payment by card under a name. -/
def cardPayments : Value := .map [(.text "first", .object "Card" [("number", .text "4111")])]

theorem conforms_cardPayments :
    Conforms orderSchema (.map .string (.object "Payment")) cardPayments := by
  have hdeclared : orderSchema.container "Payment" = .ok orderSchema.containers[2] := rfl
  have hconcrete : orderSchema.concrete orderSchema.containers[2] "Card" =
    .ok orderSchema.containers[3] := rfl
  have htexts : [(Value.text "first", Value.object "Card" [("number", .text "4111")])].mapM
      (fun entry => string.toText entry.1) = .ok ["first"] := rfl
  have hcard : Conforms orderSchema (.object "Payment")
      (.object "Card" [("number", .text "4111")]) := by
    refine .object hdeclared hconcrete (List.pairwise_singleton _ _) ?_ ?_
    · simp [orderSchema, Property.isDiscriminator]
    · intro entry hentry p hp hname _
      obtain rfl := List.mem_singleton.1 hentry
      have htype : p.type = .string := by
        simp [orderSchema] at hp
        rcases hp with rfl | rfl
        · simp at hname
        · rfl
      rw [htype]
      exact .scalar trivial
  refine .map ?_ ?_ (List.nodup_singleton _) htexts (List.pairwise_singleton _ _)
  · intro entry hentry
    obtain rfl := List.mem_singleton.1 hentry
    exact .scalar trivial
  · intro entry hentry _
    obtain rfl := List.mem_singleton.1 hentry
    exact hcard

/-- The payment is read from the document that tells its variant. -/
theorem ofDocument_cardPayments :
    orderDocument.build = .ok orderSchema ∧
      Conforms orderSchema (.map .string (.object "Payment")) cardPayments ∧
      (ValueType.map .string (.object "Payment")).ofDocument orderSchema none false
          (.object [("first", .object [("method", .string "Card"), ("number", .string "4111")])]) =
        .ok cardPayments := by
  obtain ⟨j, hwritten, hread⟩ := ofDocument_document (d := orderDocument) rfl conforms_cardPayments
  have hdocument : (ValueType.map .string (.object "Payment")).document orderSchema {} cardPayments =
    .ok (.object
      [("first", .object [("method", .string "Card"), ("number", .string "4111")])]) := rfl
  obtain rfl := Except.ok.inj (hdocument.symm.trans hwritten)
  exact ⟨rfl, conforms_cardPayments, hread⟩

end ValueType

end ResourceQuery
