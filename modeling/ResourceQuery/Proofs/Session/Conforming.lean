import ResourceQuery.Proofs.Session.Tree
import ResourceQuery.Proofs.ValueType.Text
import ResourceQuery.Session.Write
/-!
# Values that conform to a type

What a value has to be to be written under a type and to be read back: it has exactly the declared
kind all the way down. Binary numbers have no place here, as a document has only one kind of them.
Parts of a structure may be missing, which `Passes` allows for: it says that a document is written
of a value and that the value is read of the document.
-/

namespace ResourceQuery

namespace ScalarKind

/-- The value has the kind, and its text is that of a number or a date. -/
def Holds : ScalarKind → Value → Prop
  | string, .text _ | boolean, .bool _ => True
  | whole width, .whole w _ => w = width
  | decimal, .decimal d => d.Sound
  | date, .date t => t.Sound ∧ (Value.date t).FourDigitYears
  | _, _ => False

end ScalarKind

namespace ValueType

/-- The value conforms to the type. Only a part of it may be null. -/
inductive Conforms (s : Schema) : ValueType → Value → Prop
  | scalar {kind : ScalarKind} {v : Value} (h : kind.Holds v) : Conforms s (.scalar kind) v
  | enum {members : List String} {text : String} (h : text ∈ members) :
      Conforms s (.enum members) (.enum text)
  /-- The reference is the one of a text, and the target accepts it. -/
  | reference {target : Target} {text : String} {r : ResourceRef}
      (hread : s.parseReference text = .ok r) (haccepts : target.accepts r.resourceType = true)
      (hyears : (Value.ofRef r).FourDigitYears) : Conforms s (.reference target) (.ofRef r)
  | list {inner : ValueType} {items : List Value}
      (hitems : ∀ item ∈ items, item ≠ .null → Conforms s inner item) :
      Conforms s (.list inner) (.list items)
  | set {inner : ValueType} {items : List Value}
      (hitems : ∀ item ∈ items, item ≠ .null → Conforms s inner item)
      (hdistinct : items.Pairwise fun earlier later => earlier.same later = false) :
      Conforms s (.set inner) (.set items)
  /-- Keys are different and in the order of their texts. -/
  | map {key inner : ValueType} {entries : List (Value × Value)} {texts : List String}
      (hkeys : ∀ entry ∈ entries, Conforms s key entry.1)
      (hvalues : ∀ entry ∈ entries, entry.2 ≠ .null → Conforms s inner entry.2)
      (hdistinct : (entries.map Prod.fst).Nodup)
      (htexts : entries.mapM (fun entry => key.toText entry.1) = .ok texts)
      (hsorted : texts.Pairwise (· ≤ ·)) : Conforms s (.map key inner) (.map entries)
  /-- An object has the declared container or one of its variants, and only properties of it that
  can be got and set, but not the one that tells the variant. -/
  | object {declaredName typeName : String} {declared c : Container}
      {properties : List (String × Value)} (hdeclared : s.container declaredName = .ok declared)
      (hconcrete : s.concrete declared typeName = .ok c) (hsorted : NameMap.Sorted properties)
      (hproperties : ∀ entry ∈ properties, ∃ p ∈ c.properties, p.name = entry.1 ∧
        p.gettable = true ∧ p.settable = true ∧ p.isDiscriminator = false)
      (hvalues : ∀ entry ∈ properties, ∀ p ∈ c.properties, p.name = entry.1 → entry.2 ≠ .null →
        Conforms s p.type entry.2) :
      Conforms s (.object declaredName) (.object typeName properties)

theorem Conforms.ne_null {s : Schema} {type : ValueType} {v : Value} (h : Conforms s type v) :
    v ≠ .null := by
  rintro rfl
  cases h with
  | @scalar kind _ h => cases kind <;> exact h

/-- The document is what is written of the value, and the value is what is read of the document. -/
structure Passes (s : Schema) (type : ValueType) (v : Value) (j : Json) : Prop where
  written : ∀ path, v.writeAt s {} type path = JsonOutput.emit j
  canonical : j.canonical = j
  read : j.orNull none (Identities.cached.readTree s none type j none) = .ok (v, none)

theorem passes_null (s : Schema) (type : ValueType) : Passes s type .null .null :=
  ⟨fun _ => rfl, rfl, rfl⟩

theorem Passes.readTree {s : Schema} {type : ValueType} {v : Value} {j : Json}
    (h : Passes s type v j) (hv : v ≠ .null) :
    Identities.cached.readTree s none type j none = .ok (v, none) := by
  have hread := h.read
  unfold Json.orNull at hread
  split at hread
  · cases hread
    exact absurd rfl hv
  · exact hread

/-! ## Leaves -/

theorem passes_text {s : Schema} {type : ValueType} {v : Value} {text : String}
    (hwritten : ∀ path, v.writeAt s {} type path = JsonOutput.emit (.string text))
    (hread : type.ofLeaf s (.string text) = .ok v) : Passes s type v (.string text) where
  written := hwritten
  canonical := rfl
  read := by
    change Identities.cached.readTree s none type (.string text) none = _
    rw [readTree_leaf (by cases type <;> rfl), hread]
    rfl

theorem fit_value {width : Width} (n : Whole width) : ScalarKind.fit width n.value = .ok n := by
  rw [ScalarKind.fit, Whole.ofInt?_value]

/-- Eight octets hold the numbers of all widths. -/
theorem ofInt?_long {width : Width} (n : Whole width) :
    ∃ m : Whole .long, Whole.ofInt? .long n.value = some m ∧ m.value = n.value := by
  have hrange : Width.least .long ≤ n.value ∧ n.value ≤ Width.greatest .long := by
    have hleast : Width.least .long ≤ width.least := by cases width <;> decide
    have hgreatest : width.greatest ≤ Width.greatest .long := by cases width <;> decide
    exact ⟨hleast.trans n.inRange.1, n.inRange.2.trans hgreatest⟩
  exact ⟨⟨n.value, hrange⟩, dif_pos hrange, rfl⟩

theorem passes_whole (s : Schema) {width : Width} (n : Whole width) :
    Passes s (.scalar (.whole width)) (.whole width n) (.number (.integer n.value)) := by
  have hread : ofLeaf s (.scalar (.whole width)) (.number (.integer n.value)) =
      .ok (.whole width n) := by
    obtain ⟨m, hm, hvalue⟩ := ofInt?_long n
    have htake : ∀ expected, (JsonInput.take expected).result
        ⟨some (.number (.integer n.value)), [], none⟩ =
      .ok (.number (.integer n.value), ⟨none, [], none⟩) := fun _ => rfl
    rw [ofLeaf, Reading.fst_run, JsonInput.readScalar, Reading.result_bind, JsonInput.readWhole,
      Reading.result_bind, htake, ok_bind]
    simp only [hm, hvalue, fit_value]
    rfl
  refine ⟨fun path => ?_, rfl, ?_⟩
  · change (Value.whole width n).writeLeaf (.scalar (.whole width)) = _
    simp only [Value.writeLeaf, ScalarKind.coerce_whole n]
    rfl
  · change Identities.cached.readTree s none _ _ none = _
    rw [readTree_leaf rfl, hread]
    rfl

theorem result_readText (text : String) :
    JsonInput.readText.result ⟨some (.string text), [], none⟩ = .ok (text, ⟨none, [], none⟩) := rfl

theorem passes_scalar {s : Schema} {kind : ScalarKind} {v : Value} (h : kind.Holds v) :
    ∃ j, Passes s (.scalar kind) v j := by
  cases kind with
  | string =>
      cases v with
      | text text => exact ⟨_, passes_text (fun _ => rfl) rfl⟩
      | _ => cases h
  | whole width =>
      cases v with
      | whole w n =>
          obtain rfl : w = width := h
          exact ⟨_, passes_whole s n⟩
      | _ => cases h
  | boolean =>
      cases v with
      | bool b => exact ⟨.bool b, fun _ => rfl, rfl, rfl⟩
      | _ => cases h
  | decimal =>
      cases v with
      | decimal d =>
          refine ⟨.string d.toText, passes_text (fun _ => rfl) ?_⟩
          rw [ofLeaf, Reading.fst_run, JsonInput.readScalar, Reading.result_bind,
            JsonInput.readDecimal, Reading.result_bind, result_readText, ok_bind]
          simp only [Decimal.read?_toText h]
          rfl
      | _ => cases h
  | date =>
      cases v with
      | date t =>
          obtain ⟨hsound, hyear⟩ := h
          refine ⟨.string t.toText, passes_text (fun _ => rfl) ?_⟩
          rw [ofLeaf, Reading.fst_run, JsonInput.readScalar, Reading.result_bind,
            JsonInput.readDate, Reading.result_bind, result_readText, ok_bind]
          simp only [Instant.readTimestamp?_toText hsound hyear]
          rfl
      | _ => cases h
  | float => cases v <;> cases h
  | double => cases v <;> cases h

theorem passes_enum (s : Schema) {members : List String} {text : String} (h : text ∈ members) :
    Passes s (.enum members) (.enum text) (.string text) := by
  have hcontains : members.contains text = true := by simpa using h
  refine passes_text (fun path => ?_) ?_
  · have htext : (ValueType.enum members).toText (.enum text) = .ok text := by
      simp only [toText, leaf, Value.text?, if_pos hcontains]
    change (Value.enum text).writeLeaf (.enum members) = _
    simp only [Value.writeLeaf, htext]
    rfl
  · change parseMember members text = _
    rw [parseMember, if_pos hcontains]

/-- A reference has the text that it is encoded as. -/
theorem parseReference_encode {s : Schema} {text : String} {r : ResourceRef}
    (hread : s.parseReference text = .ok r) (hyears : (Value.ofRef r).FourDigitYears) :
    s.parseReference r.encode = .ok r := by
  -- a reference is a value of the type of all references
  have hvalue : (ValueType.reference .any).parseText s text = .ok (.ofRef r) :=
    (parseText_reference_eq_ok_iff rfl).2 ⟨r, hread, rfl, rfl⟩
  obtain ⟨written, hwritten, -, hagain⟩ := readsBack_of_parseText hvalue
  have hencode : r.encode = written := Option.some.inj hwritten
  obtain ⟨again, hreread, -, heq⟩ := (parseText_reference_eq_ok_iff rfl).1 (hagain hyears)
  obtain rfl := Value.ofRef_injective heq
  rw [hencode]
  exact hreread

theorem passes_reference {s : Schema} {target : Target} {text : String} {r : ResourceRef}
    (hread : s.parseReference text = .ok r) (haccepts : target.accepts r.resourceType = true)
    (hyears : (Value.ofRef r).FourDigitYears) :
    Passes s (.reference target) (.ofRef r) (.string r.encode) := by
  refine passes_text (fun path => ?_) ?_
  · change (Value.ofRef r).writeLeaf (.reference target) = _
    simp only [Value.writeLeaf, Value.ofRef, Value.ref?, if_pos haccepts]
    rfl
  · change (do target.accept r.encode (← s.parseReference r.encode)) = _
    rw [parseReference_encode hread hyears, ok_bind, Target.accept, if_pos haccepts]

/-! ## Keys -/

theorem parse_toText {kind : ScalarKind} {v : Value} {text : String} (h : kind.Holds v)
    (htext : kind.toText v = .ok text) : kind.parse text = .ok v := by
  cases kind with
  | string =>
      cases v with
      | text s =>
          cases htext
          rfl
      | _ => cases h
  | whole width =>
      cases v with
      | whole w n =>
          obtain rfl : w = width := h
          simp only [ScalarKind.toText, ScalarKind.coerce, fit_value] at htext
          cases htext
          simp only [ScalarKind.parse, Whole.read_toText]
      | _ => cases h
  | boolean =>
      cases v with
      | bool b =>
          cases htext
          cases b <;> rfl
      | _ => cases h
  | decimal =>
      cases v with
      | decimal d =>
          cases htext
          simp only [ScalarKind.parse, Decimal.read?_toText h]
      | _ => cases h
  | date =>
      cases v with
      | date t =>
          cases htext
          simp only [ScalarKind.parse, Instant.read?_toText h.1 h.2]
      | _ => cases h
  | float => cases v <;> cases h
  | double => cases v <;> cases h

/-- What is neither a scalar nor a text nor a reference has no text. -/
theorem toText_ne_ok {type : ValueType} {v : Value} {text : String}
    (hscalar : ∀ kind : ScalarKind, kind.toText v ≠ .ok text) (htext : v.text? = none)
    (href : v.ref? = none) : type.toText v ≠ .ok text := by
  intro h
  unfold toText at h
  split at h
  · exact hscalar _ h
  · rw [htext] at h
    cases h
  · rw [href] at h
    cases h
  · cases h

/-- A value that conforms to a type and has a text under it is read from that text. -/
theorem Conforms.parseText {s : Schema} {type : ValueType} {v : Value} {text : String}
    (h : Conforms s type v) (htext : type.toText v = .ok text) : type.parseText s text = .ok v := by
  cases h with
  | scalar h => exact parse_toText h htext
  | @enum members text' h =>
      have hcontains : members.contains text' = true := by simpa using h
      simp only [toText, leaf, Value.text?, if_pos hcontains] at htext
      cases htext
      change parseMember members text = _
      rw [parseMember, if_pos hcontains]
  | @reference target origin r hread haccepts hyears =>
      simp only [toText, leaf, Value.ofRef, Value.ref?, if_pos haccepts] at htext
      cases htext
      change (do target.accept r.encode (← s.parseReference r.encode)) = _
      rw [parseReference_encode hread hyears, ok_bind, Target.accept, if_pos haccepts]
  | list | set | map | object =>
      exact absurd htext (toText_ne_ok (fun kind h => by cases kind <;> cases h) rfl rfl)

theorem Conforms.keyText {s : Schema} {type : ValueType} {v : Value} (h : Conforms s type v) :
    Value.keyText type v = type.toText v := by
  cases h <;> rfl

end ValueType

end ResourceQuery
