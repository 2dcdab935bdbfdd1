import ResourceQuery.Proofs.Session.Emission
import ResourceQuery.Proofs.Session.Submitted
/-!
# One value is taken and one is put

Reading a value takes the one that waits, and nothing else: whatever was opened for it is closed
again, in the document and in the cache of identities. Writing a value puts one value to where the
next one belongs (`read_write_balanced`).
-/

namespace ResourceQuery

/-! ## What is kept behind a value -/

theorem IdentityCache.context_intern (cache : IdentityCache) (name : String) (value : Value) :
    (cache.intern name value).2.context = cache.context := by
  simp only [intern]
  split <;> rfl

namespace Identities

variable {σ : Type} {s : Schema} {principal : Option Principal} {I : Identities σ}
  {R : σ → σ → Prop}

/-- A relation between what is kept before and behind a piece of reading under the schema. -/
structure Carries (s : Schema) (R : σ → σ → Prop) (I : Identities σ) : Prop where
  refl : ∀ a, R a a
  trans : ∀ {a b c}, R a b → R b c → R a c
  /-- A property that is entered is left again. -/
  within : ∀ {c : Container} {p : Property} {a b}, c ∈ s.containers → p ∈ c.properties →
    R (I.enter p.name a) b → R a (I.exit b)
  intern : ∀ {c : Container} (id : Value) (object : Instance) (a), c ∈ s.containers →
    R a (I.intern (ResourceRef.encode ⟨c.name, id⟩) object a).2

namespace Carries

theorem interned (h : I.Carries s R) {c : Container} (hc : c ∈ s.containers) (object : Instance)
    (a : σ) : R a (I.interned c object a).2 := by
  unfold Identities.interned
  cases hidentity : object.identity? c with
  | none => exact h.refl a
  | some key =>
      obtain ⟨id, rfl⟩ := Instance.exists_encode_of_identity? hidentity
      exact h.intern id object a hc

theorem orNull (h : I.Carries s R) {j : Json} {a : σ} {tree : Except Fault (Value × σ)}
    {read : Value × σ} (htree : tree = .ok read → R a read.2) (hread : j.orNull a tree = .ok read) :
    R a read.2 := by
  unfold Json.orNull at hread
  split at hread
  · cases hread
    exact h.refl a
  · exact htree hread

theorem leaf (h : I.Carries s R) {type : ValueType} {j : Json} (hleaf : type.opens j = false) {a : σ}
    {read : Value × σ} (hread : I.readTree s principal type j a = .ok read) : R a read.2 := by
  rw [ValueType.readTree_leaf hleaf] at hread
  obtain ⟨v, -, rfl⟩ := map_eq_ok_iff.1 hread
  exact h.refl a

mutual

/-- What each step keeps, the reading of a whole value keeps. -/
theorem readTree (h : I.Carries s R) : ∀ (j : Json) {type : ValueType} {a : σ} {read : Value × σ},
    I.readTree s principal type j a = .ok read → R a read.2
  | .object members, type, a, read, hread => by
    cases type with
    | object typeName =>
        rw [Identities.readTree] at hread
        obtain ⟨⟨c, tag⟩, hopened, hread⟩ := bind_eq_ok_iff.1 hread
        obtain ⟨⟨content, between⟩, hmembers, hread⟩ := bind_eq_ok_iff.1 hread
        cases hread
        have hc : c ∈ s.containers :=
          List.mem_of_find?_eq_some (Schema.describes_of_openMembers hopened).1
        exact h.trans (readMembers h members hc hmembers) (h.interned hc content between)
    | map key inner =>
        rw [Identities.readTree] at hread
        obtain ⟨⟨entries, between⟩, hentries, hread⟩ := bind_eq_ok_iff.1 hread
        cases hread
        exact readEntries h members hentries
    | _ => exact h.leaf rfl hread
  | .array items, type, a, read, hread => by
    cases type with
    | list inner | set inner =>
        rw [Identities.readTree] at hread
        obtain ⟨⟨values, between⟩, hvalues, hread⟩ := bind_eq_ok_iff.1 hread
        cases hread
        exact readItems h items hvalues
    | _ => exact h.leaf rfl hread
  | .null, type, a, read, hread | .bool _, type, a, read, hread | .number _, type, a, read, hread
  | .string _, type, a, read, hread => h.leaf (by cases type <;> rfl) hread

theorem readMembers (h : I.Carries s R) : ∀ (members : List (String × Json)) {c : Container}
    {tag : Option String} {content : Instance} {a : σ} {read : Instance × σ}, c ∈ s.containers →
    I.readMembers s principal c tag members content a = .ok read → R a read.2
  | [], c, tag, content, a, read, hc, hread => by
    cases hread
    exact h.refl a
  | (name, j) :: rest, c, tag, content, a, read, hc, hread => by
    rw [Identities.readMembers] at hread
    split at hread
    · exact readMembers h rest hc hread
    · obtain ⟨found, hfound, hread⟩ := bind_eq_ok_iff.1 hread
      obtain ⟨p, hp, ⟨rfl, -⟩ | ⟨rfl, -⟩⟩ := Schema.submittable_ok hfound
      · exact readMembers h rest hc hread
      · obtain ⟨⟨value, between⟩, hvalue, hread⟩ := bind_eq_ok_iff.1 hread
        have hname : p.name = name := by simpa using List.find?_some hp
        subst hname
        have hentered := h.orNull (readTree h j) hvalue
        exact h.trans (h.within hc (List.mem_of_find?_eq_some hp) hentered)
          (readMembers h rest hc hread)

theorem readItems (h : I.Carries s R) : ∀ (items : List Json) {type : ValueType} {a : σ}
    {read : List Value × σ}, I.readItems s principal type items a = .ok read → R a read.2
  | [], type, a, read, hread => by
    cases hread
    exact h.refl a
  | j :: rest, type, a, read, hread => by
    rw [Identities.readItems] at hread
    obtain ⟨⟨value, between⟩, hvalue, hread⟩ := bind_eq_ok_iff.1 hread
    obtain ⟨⟨values, behind⟩, hvalues, hread⟩ := bind_eq_ok_iff.1 hread
    cases hread
    have hfirst := h.orNull (readTree h j) hvalue
    have hothers := readItems h rest hvalues
    exact h.trans hfirst hothers

theorem readEntries (h : I.Carries s R) : ∀ (members : List (String × Json))
    {keyType type : ValueType} {a : σ} {read : List (Value × Value) × σ},
    I.readEntries s principal keyType type members a = .ok read → R a read.2
  | [], keyType, type, a, read, hread => by
    cases hread
    exact h.refl a
  | (text, j) :: rest, keyType, type, a, read, hread => by
    rw [Identities.readEntries] at hread
    obtain ⟨key, -, hread⟩ := bind_eq_ok_iff.1 hread
    obtain ⟨⟨value, between⟩, hvalue, hread⟩ := bind_eq_ok_iff.1 hread
    obtain ⟨⟨entries, behind⟩, hentries, hread⟩ := bind_eq_ok_iff.1 hread
    cases hread
    have hfirst := h.orNull (readTree h j) hvalue
    have hothers := readEntries h rest hentries
    exact h.trans hfirst hothers

end

end Carries

/-- Behind a value the cache stands in the context it stood in before. -/
theorem cached_carries_context (s : Schema) : cached.Carries s fun known left =>
    left.map IdentityCache.context = known.map IdentityCache.context where
  refl _ := rfl
  trans h h' := h'.trans h
  within {c p known left} _ _ h := by
    cases known with
    | none =>
        obtain rfl : left = none := Option.map_eq_none_iff.1 h
        rfl
    | some cache =>
        obtain ⟨entered, rfl, hcontext⟩ := Option.map_eq_some_iff.1 h
        change some (IdentityCache.exit entered).context = some cache.context
        rw [IdentityCache.exit, hcontext]
        simp [IdentityCache.enter]
  intern {c} id object known _ := by
    cases known with
    | none => rfl
    | some cache =>
        exact congrArg some (IdentityCache.context_intern cache _ _)

end Identities

/-- The value that waited is taken, and all else that is open stays open. -/
structure JsonInput.Takes (input left : JsonInput) : Prop where
  next : left.next = none
  stack : left.stack = input.stack
  context : left.identities.map IdentityCache.context = input.identities.map IdentityCache.context

theorem ValueType.read_takes {s : Schema} {principal : Option Principal} {type : ValueType}
    {input left : JsonInput} {v : Value} (hnext : input.next.isSome = true)
    (h : (type.read s principal).run.run input = (.ok v, left)) : input.Takes left := by
  obtain ⟨next, stack, known⟩ := input
  obtain ⟨j, rfl⟩ := Option.isSome_iff_exists.1 hnext
  obtain ⟨kept, htree, rfl⟩ := read_run.1 h
  exact ⟨rfl, rfl, (Identities.cached_carries_context s).readTree j htree⟩

/-! ## What is put behind what is written -/

/-- One value was put to where the next value belongs. -/
inductive JsonOutput.Receives (j : Json) : JsonOutput → JsonOutput → Prop
  | result : Receives j ⟨[], none⟩ ⟨[], some j⟩
  | element (items : List Json) (rest : List OpenOutput) (result : Option Json) :
      Receives j ⟨.array items :: rest, result⟩ ⟨.array (items ++ [j]) :: rest, result⟩
  | member (members : NameMap Json) (name : String) (rest : List OpenOutput)
      (result : Option Json) :
      Receives j ⟨.object members (some name) :: rest, result⟩
        ⟨.object (members.insert name j) none :: rest, result⟩

namespace Writing

theorem receives_of_emit {j : Json} {output final : JsonOutput}
    (h : (JsonOutput.emit j).outcome output = (.ok (), final)) : output.Receives j final := by
  obtain ⟨_ | ⟨top, rest⟩, result⟩ := output
  · cases result with
    | none =>
        cases h
        exact .result
    | some old => cases h
  · cases top with
    | array items =>
        rw [emit_array h]
        exact .element items rest result
    | object members pending =>
        cases pending with
        | none => cases h
        | some name =>
            rw [emit_object h]
            exact .member members name rest result

section

variable {s : Schema} {o : WriteOptions}

/-- Properties that are written or passed over leave the object open. -/
theorem object_open_of_writeProperties {path : String} {values : NameMap WritableProperty}
    {properties : List Property}
    (h : ∀ name value, values.find? name = some value →
      ∀ type path, (value.write type path).Emits fun _ => True)
    {members : NameMap Json} {pending : Option String} {rest : List OpenOutput}
    {result : Option Json} {final : JsonOutput}
    (hrun : (properties.forM (Value.writeProperty o path values)).outcome
      ⟨.object members pending :: rest, result⟩ = (.ok (), final)) :
    ∃ written pending', final = ⟨.object written pending' :: rest, result⟩ := by
  induction properties generalizing members pending with
  | nil =>
      cases hrun
      exact ⟨members, pending, rfl⟩
  | cons p others ih =>
      change (Value.writeProperty o path values p >>= fun _ =>
        others.forM (Value.writeProperty o path values)).outcome _ = _ at hrun
      obtain ⟨_, between, hproperty, hothers⟩ := outcome_bind_ok.1 hrun
      have hfirst := outcome_writeProperty (fun value hvalue => h p.name value hvalue _ _) hproperty
      split at hfirst
      · obtain ⟨j, -, rfl⟩ := hfirst
        exact ih hothers
      · rw [hfirst] at hothers
        exact ih hothers

theorem emits_writeObject {name typeName path : String} {values : NameMap WritableProperty}
    (h : ∀ name value, values.find? name = some value →
      ∀ type path, (value.write type path).Emits fun _ => True) :
    (Value.writeObject s o name typeName path values).Emits fun _ => True := by
  unfold Value.writeObject
  refine emits_lift_bind fun c _ => emits_lift_bind fun d _ => ?_
  refine (emits_members (P := fun _ => True) ?_).mono fun _ _ => trivial
  intro rest result final hrun
  obtain ⟨written, pending, hfinal⟩ := object_open_of_writeProperties h hrun
  exact ⟨written, pending, trivial, hfinal⟩

theorem emits_writeItems {items : List Value} {type : ValueType} {path : String}
    (h : ∀ item ∈ items, ∀ type path, (item.writeAt s o type path).Emits fun _ => True) :
    (do JsonOutput.beginCollection
        Value.writeItems s o items type path
        JsonOutput.endCollection : Writing Unit).Emits fun _ => True := by
  refine (emits_collection (P := fun _ => True) ?_).mono fun _ _ => trivial
  intro rest result final hrun
  obtain ⟨written, hfinal, -⟩ := outcome_writeItems (fun item hitem => h item hitem type path) hrun
  exact ⟨_, trivial, hfinal⟩

theorem emits_writeEntries {entries : List (Value × Value)} {keyType type : ValueType}
    {path : String}
    (h : ∀ entry ∈ entries, ∀ type path, (entry.2.writeAt s o type path).Emits fun _ => True) :
    (do JsonOutput.beginMap
        Value.writeEntries s o entries keyType type path
        JsonOutput.endMap : Writing Unit).Emits fun _ => True := by
  refine (@emits_members none _ (fun _ => True) ?_).mono fun _ _ => trivial
  intro rest result final hrun
  obtain ⟨members, pending, hfinal, -⟩ :=
    outcome_writeEntries (P := fun _ _ => True) (fun entry hentry => h entry hentry type path) hrun
  exact ⟨members, pending, trivial, hfinal⟩

end

section

variable (s : Schema) (o : WriteOptions)

/-- Every value is written as one value. -/
theorem emits_writeAt (v : Value) : ∀ (type : ValueType) (path : String),
    (v.writeAt s o type path).Emits fun _ => True := by
  induction v using Value.byParts with
  | object typeName properties hproperties =>
      intro type path
      rw [Value.writeAt]
      split
      · refine emits_writeObject fun name value hvalue => ?_
        rw [Value.find?_writableProperties] at hvalue
        obtain ⟨w, hw, rfl⟩ := Option.map_eq_some_iff.1 hvalue
        exact hproperties (name, w) (NameMap.mem_of_find? hw)
      · exact emits_valueLeaf _ _
  | list items hitems | set items hitems =>
      intro type path
      rw [Value.writeAt]
      split
      · exact emits_writeItems hitems
      · exact emits_writeItems hitems
      · exact emits_valueLeaf _ _
  | map entries hentries =>
      intro type path
      rw [Value.writeAt]
      split
      · exact emits_writeEntries hentries
      · exact emits_valueLeaf _ _
  | plain v hv =>
      intro type path
      cases v with
      | object _ _ | list _ | set _ | map _ => cases hv
      | null =>
          rw [Value.writeAt]
          exact (emits_emit .null).mono fun _ _ => trivial
      | _ =>
          simp only [Value.writeAt]
          exact emits_valueLeaf _ _

end

end Writing

/-- Whatever else is open, what is read is the value that waited, and what is written is one value.
-/
theorem read_write_balanced (s : Schema) (type : ValueType) :
    (∀ (principal : Option Principal) (input left : JsonInput) (v : Value),
      input.next.isSome = true → (type.read s principal).run.run input = (.ok v, left) →
        input.Takes left) ∧
    ∀ (o : WriteOptions) (v : Value) (output final : JsonOutput),
      (type.write s o v).run.run output = (.ok (), final) → ∃ j, output.Receives j final := by
  refine ⟨fun _ _ _ _ hnext hread => ValueType.read_takes hnext hread, ?_⟩
  intro o v output final hwrite
  obtain ⟨j, -, hemit⟩ := Writing.emits_writeAt s o v type "" output final hwrite
  exact ⟨j, Writing.receives_of_emit hemit⟩

/-- Ann is read in front of one more person, and written under a name. -/
theorem person_balanced :
    let ann := Value.ofInstance (ValueType.person (some "Ann"))
    let input : JsonInput :=
      ⟨some (ValueType.personJson (some "Ann")), [.array [ValueType.personJson none]], some .empty⟩
    let left : JsonInput :=
      ⟨none, [.array [ValueType.personJson none]], some ⟨⟨[]⟩, [("User#1", ann)], 0⟩⟩
    let output : JsonOutput := ⟨[.object [] (some "user")], none⟩
    let final : JsonOutput :=
      ⟨[.object [("user", ValueType.personJson (some "Ann"))] none], none⟩
    input.next.isSome = true ∧
      ((ValueType.object "User").read ValueType.personSchema none).run.run input = (.ok ann, left) ∧
      input.Takes left ∧
      ((ValueType.object "User").write ValueType.personSchema {} ann).run.run output =
        (.ok (), final) ∧
      ∃ j, output.Receives j final := by
  intro ann input left output final
  obtain ⟨hread, hwrite⟩ := read_write_balanced ValueType.personSchema (.object "User")
  exact ⟨rfl, rfl, hread none input left ann rfl rfl, rfl, hwrite {} ann output final rfl⟩

end ResourceQuery
