import ResourceQuery.Proofs.Schema.WellFormed
import ResourceQuery.Proofs.Text.Pieces
import ResourceQuery.Schema.Reference
/-!
# Reading texts under a type

Under a type a text is read as a scalar, as a member of an enum or as a reference, and behind the
separator of a reference stands a text that is read under the type of an identifier. `ReadsAs`
tells these cases apart, so that what holds of every value that was read (`readsAs_of_parseText`) is
shown case by case, and of a reference from what holds of the identifier.
-/

namespace ResourceQuery

theorem Value.ofRef_injective {r other : ResourceRef} (h : Value.ofRef r = Value.ofRef other) :
    r = other := by
  obtain ⟨type, id⟩ := r
  obtain ⟨type', id'⟩ := other
  cases h
  rfl

theorem Target.accept_eq_ok_iff {target : Target} {text : String} {r : ResourceRef} {v : Value} :
    target.accept text r = .ok v ↔ target.accepts r.resourceType = true ∧ v = .ofRef r := by
  unfold accept
  constructor
  · intro h
    split at h
    · rename_i haccepts
      exact ⟨haccepts, (Except.ok.inj h).symm⟩
    · cases h
  · rintro ⟨haccepts, rfl⟩
    rw [if_pos haccepts]

theorem ValueType.parseMember_eq_ok_iff {members : List String} {text : String} {v : Value} :
    parseMember members text = .ok v ↔ members.contains text = true ∧ v = .enum text := by
  unfold parseMember
  constructor
  · intro h
    split at h
    · rename_i hmember
      exact ⟨hmember, (Except.ok.inj h).symm⟩
    · cases h
  · rintro ⟨hmember, rfl⟩
    rw [if_pos hmember]

/-! ## References -/

namespace ResourceRef

theorem split?_eq_some_iff {text type id : String} :
    split? text = some (type, id) ↔
      Text.splitFirst Value.referenceSeparator text.toList = some (type.toList, id.toList) ∧
        type ≠ "" ∧ id ≠ "" := by
  unfold split?
  cases Text.splitFirst Value.referenceSeparator text.toList with
  | none => simp
  | some parts =>
      obtain ⟨front, back⟩ := parts
      simp only [Bool.or_eq_true, List.isEmpty_iff, Option.some.injEq, Prod.mk.injEq]
      constructor
      · intro h
        split at h
        · cases h
        · rename_i hempty
          cases h
          simpa using hempty
      · rintro ⟨⟨rfl, rfl⟩, htype, hid⟩
        simp [htype, hid]

theorem split_eq_ok_iff {text : String} {parts : String × String} :
    split text = .ok parts ↔ split? text = some parts := by
  unfold split
  cases split? text <;> simp

/-- Behind the separator stands less than the whole text. -/
theorem length_of_split? {text type id : String} (h : split? text = some (type, id)) :
    id.toList.length < text.toList.length :=
  Text.length_of_splitFirst (split?_eq_some_iff.1 h).1

/-- Another identifier behind the same type is found if it has a text. -/
theorem split?_append_eq_some_iff {text type id other : String} {parts : String × String}
    (h : split? text = some (type, id)) :
    split? (type ++ "#" ++ other) = some parts ↔ other ≠ "" ∧ parts = (type, other) := by
  obtain ⟨hsplit, htype, -⟩ := split?_eq_some_iff.1 h
  have hchars : (type ++ "#" ++ other).toList =
      type.toList ++ Value.referenceSeparator :: other.toList := by
    simp [Value.referenceSeparator]
  have hagain : Text.splitFirst Value.referenceSeparator (type ++ "#" ++ other).toList =
      some (type.toList, other.toList) := by
    rw [hchars, Text.splitFirst_append _ (Text.splitFirst_eq_some hsplit)]
  constructor
  · intro hparts
    obtain ⟨hfound, -, hne⟩ := split?_eq_some_iff.1 hparts
    rw [hagain, Option.some.injEq, Prod.mk.injEq, String.toList_inj, String.toList_inj] at hfound
    exact ⟨hfound.2 ▸ hne, Prod.ext hfound.1.symm hfound.2.symm⟩
  · rintro ⟨hne, rfl⟩
    exact split?_eq_some_iff.2 ⟨hagain, htype, hne⟩

end ResourceRef

namespace Schema

variable {s : Schema}

theorem referable_eq_ok_iff {text type : String} {identifier : Property} :
    s.referable text type = .ok identifier ↔
      ∃ resource, s.resource type = .ok resource ∧ resource.identifier? = some identifier := by
  unfold referable
  constructor
  · intro h
    simp only at h
    split at h
    · cases h
    · rename_i resource hresource
      split at h
      · rename_i id hid
        cases h
        exact ⟨resource, filter_isResource_eq_some_iff.1 hresource, hid⟩
      · cases h
  · rintro ⟨resource, hresource, hidentifier⟩
    simp only [filter_isResource_eq_some_iff.2 hresource, hidentifier]

/-- The identifier in a reference is read like any other value of its type. -/
theorem parseReference_eq (s : Schema) (text : String) : s.parseReference text = (do
    let parts ← ResourceRef.split text
    let identifier ← s.referable text parts.1
    let value ← identifier.type.parseText s parts.2
    return ⟨parts.1, value⟩) := by
  unfold parseReference ResourceRef.split ResourceRef.split?
  rw [readReference]
  split
  · rename_i hsplit
    rw [hsplit, String.ofList_toList]
    rfl
  · rename_i type id hsplit
    rw [hsplit]
    by_cases hempty : (type.isEmpty || id.isEmpty) = true
    · simp only [hempty, if_true, String.ofList_toList]
      rfl
    · simp only [hempty, if_false, String.ofList_toList, ok_bind, Bool.false_eq_true]
      refine congrArg (_ >>= ·) (funext fun identifier => ?_)
      unfold ValueType.parseText parseReference
      cases identifier.type.leaf <;> simp only [bind_assoc, String.toList_ofList]

theorem parseReference_eq_ok_iff {text : String} {r : ResourceRef} :
    s.parseReference text = .ok r ↔
      ∃ id resource identifier, ResourceRef.split? text = some (r.resourceType, id) ∧
        s.resource r.resourceType = .ok resource ∧ resource.identifier? = some identifier ∧
        identifier.type.parseText s id = .ok r.id := by
  simp only [parseReference_eq, bind_eq_ok_iff, ResourceRef.split_eq_ok_iff, referable_eq_ok_iff]
  constructor
  · rintro ⟨⟨type, id⟩, hsplit, identifier, ⟨resource, hresource, hidentifier⟩, value, hvalue, hr⟩
    cases hr
    exact ⟨id, resource, identifier, hsplit, hresource, hidentifier, hvalue⟩
  · rintro ⟨id, resource, identifier, hsplit, hresource, hidentifier, hvalue⟩
    exact ⟨_, hsplit, identifier, ⟨resource, hresource, hidentifier⟩, _, hvalue, rfl⟩

end Schema

/-! ## Types -/

namespace ValueType

variable {s : Schema} {type : ValueType} {text : String} {v : Value}

/-- A text is read as a value under the leaf of a type. -/
inductive ReadsAs (s : Schema) : ValueType → String → Value → Prop
  | scalar {type : ValueType} {kind : ScalarKind} {text : String} {v : Value}
    (hleaf : type.leaf = .scalar kind) (hread : kind.parse text = .ok v) : ReadsAs s type text v
  | enum {type : ValueType} {members : List String} {text : String}
    (hleaf : type.leaf = .enum members) (hmember : members.contains text = true) :
    ReadsAs s type text (.enum text)
  | reference {type : ValueType} {target : Target} {text name id : String} {resource : Container}
    {identifier : Property} {value : Value} (hleaf : type.leaf = .reference target)
    (haccepts : target.accepts name = true)
    (hsplit : ResourceRef.split? text = some (name, id))
    (hresource : s.resource name = .ok resource) (hidentifier : resource.identifier? = some identifier)
    (hid : ReadsAs s identifier.type id value) : ReadsAs s type text (.reference name value)

theorem parseText_scalar {kind : ScalarKind} (hleaf : type.leaf = .scalar kind) :
    type.parseText s text = kind.parse text := by
  rw [parseText, hleaf]

theorem parseText_enum {members : List String} (hleaf : type.leaf = .enum members) :
    type.parseText s text = parseMember members text := by
  rw [parseText, hleaf]

theorem parseText_reference_eq_ok_iff {target : Target} (hleaf : type.leaf = .reference target) :
    type.parseText s text = .ok v ↔ ∃ r, s.parseReference text = .ok r ∧
      target.accepts r.resourceType = true ∧ v = .ofRef r := by
  simp only [parseText, hleaf, bind_eq_ok_iff, Target.accept_eq_ok_iff]

theorem parseText_of_readsAs (h : type.ReadsAs s text v) : type.parseText s text = .ok v := by
  induction h with
  | scalar hleaf hread => rw [parseText_scalar hleaf, hread]
  | enum hleaf hmember =>
      rw [parseText_enum hleaf]
      exact parseMember_eq_ok_iff.2 ⟨hmember, rfl⟩
  | reference hleaf haccepts hsplit hresource hidentifier _ hvalue =>
      refine (parseText_reference_eq_ok_iff hleaf).2 ⟨⟨_, _⟩, ?_, haccepts, rfl⟩
      exact Schema.parseReference_eq_ok_iff.2 ⟨_, _, _, hsplit, hresource, hidentifier, hvalue⟩

/-- The induction is on the text: identifiers are shorter. -/
theorem readsAs_of_parseText (h : type.parseText s text = .ok v) : type.ReadsAs s text v := by
  generalize hlength : text.toList.length = length
  induction length using Nat.strongRecOn generalizing type text v with
  | ind length ih =>
      cases hleaf : type.leaf with
      | scalar kind => exact .scalar hleaf (parseText_scalar hleaf ▸ h)
      | enum members =>
          rw [parseText_enum hleaf] at h
          obtain ⟨hmember, rfl⟩ := parseMember_eq_ok_iff.1 h
          exact .enum hleaf hmember
      | reference target =>
          obtain ⟨r, hr, haccepts, rfl⟩ := (parseText_reference_eq_ok_iff hleaf).1 h
          obtain ⟨id, resource, identifier, hsplit, hresource, hidentifier, hvalue⟩ :=
            Schema.parseReference_eq_ok_iff.1 hr
          have hshorter := ResourceRef.length_of_split? hsplit
          have hid : ReadsAs s identifier.type id r.id := ih _ (by omega) hvalue rfl
          exact .reference hleaf haccepts hsplit hresource hidentifier hid
      | _ =>
          rw [parseText, hleaf] at h
          cases h

end ValueType

end ResourceQuery
