import ResourceQuery.Proofs.Calendar.Instant
import ResourceQuery.Proofs.Numeral.BinaryText
import ResourceQuery.Proofs.Numeral.Decimal
import ResourceQuery.Proofs.ValueType.Reading
/-!
# Values and their texts

A value that was read from a text has a text, and that text reads as no other value. It need not
be the text the value was read from: `+7` gives `7`, and a timestamp is written for offset `Z`.
Years of more than four digits are written with a sign, which only a plain day may have.
-/

namespace ResourceQuery

namespace Value

/-- A date lies in the years 0 to 9999, also one that identifies what a reference points to. -/
def FourDigitYears : Value → Prop
  | date t => 0 ≤ t.date.year ∧ t.date.year ≤ 9999
  | reference _ id => id.FourDigitYears
  | _ => True

/-- The value has a text that reads as no other value, and as this one if its years are short. -/
def ReadsBack (read : String → Except Fault Value) (v : Value) : Prop :=
  ∃ text, v.toText? = some text ∧ (∀ w, read text = .ok w → w = v) ∧
    (v.FourDigitYears → read text = .ok v)

theorem ReadsBack.of_read {read : String → Except Fault Value} {v : Value} (text : String)
    (htext : v.toText? = some text) (hread : read text = .ok v) : v.ReadsBack read :=
  ⟨text, htext, fun _ hw => Except.ok.inj (hw.symm.trans hread), fun _ => hread⟩

end Value

theorem ScalarKind.readsBack_of_parse {kind : ScalarKind} {text : String} {v : Value}
    (h : kind.parse text = .ok v) : v.ReadsBack kind.parse := by
  cases kind with
  | string =>
      cases h
      exact .of_read text rfl rfl
  | whole width =>
      simp only [parse] at h
      split at h
      · rename_i n hn
        cases h
        refine .of_read n.toText rfl ?_
        simp only [parse, Whole.read_toText]
      · cases h
  | float =>
      simp only [parse] at h
      split at h
      · rename_i x hx
        cases h
        have hsound := Binary.read_sound Binary.Format.single_proper hx
        refine .of_read x.positional rfl ?_
        simp only [parse, Binary.read_positional Binary.Format.single_proper hsound]
      · cases h
  | double =>
      simp only [parse] at h
      split at h
      · rename_i x hx
        cases h
        have hsound := Binary.read_sound Binary.Format.double_proper hx
        refine .of_read x.positional rfl ?_
        simp only [parse, Binary.read_positional Binary.Format.double_proper hsound]
      · cases h
  | boolean =>
      simp only [parse] at h
      split at h
      · rename_i b hb
        cases h
        cases b with
        | true => exact .of_read "true" rfl rfl
        | false => exact .of_read "false" rfl rfl
      · cases h
  | decimal =>
      simp only [parse] at h
      split at h
      · rename_i d hd
        cases h
        refine .of_read d.toText rfl ?_
        simp only [parse, Decimal.read?_toText (Decimal.read?_sound hd)]
      · cases h
  | date =>
      simp only [parse] at h
      split at h
      · rename_i t ht
        cases h
        have hsound := Instant.read?_sound ht
        refine ⟨t.toText, rfl, ?_, ?_⟩
        · intro w hw
          simp only [parse] at hw
          split at hw
          · rename_i u hu
            cases hw
            rw [Instant.eq_of_read?_toText hsound hu]
          · cases hw
        · intro hyear
          simp only [parse, Instant.read?_toText hsound hyear]
      · cases h

theorem ScalarKind.parse_empty {kind : ScalarKind} {v : Value} (h : kind.parse "" = .ok v) :
    kind = .string := by
  cases kind with
  | string => rfl
  | whole width =>
      have hread : Whole.read width "" = .error .empty := rfl
      simp only [parse, hread] at h
      cases h
  | float | double | boolean | decimal | date => cases h

namespace ValueType

variable {s : Schema} {type : ValueType} {text : String} {v : Value}

/-- A value that is read from the empty text is read from no other. -/
theorem eq_empty_of_parseText (hempty : type.parseText s "" = .ok v)
    (h : type.parseText s text = .ok v) : text = "" := by
  cases readsAs_of_parseText hempty with
  | scalar hleaf hread =>
      obtain rfl := ScalarKind.parse_empty hread
      rw [parseText_scalar hleaf] at h
      cases hread
      cases h
      rfl
  | enum hleaf _ =>
      rw [parseText_enum hleaf] at h
      exact (Value.enum.inj (parseMember_eq_ok_iff.1 h).2).symm
  | reference _ _ hsplit => cases hsplit

theorem ReadsAs.readsBack (h : type.ReadsAs s text v) : v.ReadsBack (type.parseText s) := by
  induction h with
  | @scalar type kind text v hleaf hread =>
      have hkind : type.parseText s = kind.parse := funext fun _ => parseText_scalar hleaf
      rw [hkind]
      exact ScalarKind.readsBack_of_parse hread
  | @enum type members text hleaf hmember =>
      exact .of_read text rfl (parseText_of_readsAs (.enum hleaf hmember))
  | @reference type target text name id resource identifier value hleaf haccepts hsplit hresource
      hidentifier hid ih =>
      obtain ⟨written, hwritten, hread, hagain⟩ := ih
      refine ⟨name ++ "#" ++ written, ?_, ?_, ?_⟩
      · simp only [Value.toText?, hwritten, Option.getD_some]
      · intro w hw
        obtain ⟨⟨name', value'⟩, hr, -, rfl⟩ := (parseText_reference_eq_ok_iff hleaf).1 hw
        obtain ⟨_, _, _, hsplit', hresource', hidentifier', hvalue'⟩ :=
          Schema.parseReference_eq_ok_iff.1 hr
        obtain ⟨-, heq⟩ := (ResourceRef.split?_append_eq_some_iff hsplit).1 hsplit'
        cases heq
        cases hresource.symm.trans hresource'
        cases hidentifier.symm.trans hidentifier'
        obtain rfl := hread _ hvalue'
        rfl
      · intro hyears
        have hvalue := hagain hyears
        have hne : written ≠ "" := by
          rintro rfl
          have hempty := eq_empty_of_parseText hvalue (parseText_of_readsAs hid)
          exact (ResourceRef.split?_eq_some_iff.1 hsplit).2.2 hempty
        have hwhole := (ResourceRef.split?_append_eq_some_iff hsplit).2 ⟨hne, rfl⟩
        exact parseText_of_readsAs
          (.reference hleaf haccepts hwhole hresource hidentifier (readsAs_of_parseText hvalue))

/-- A value that was read from a text has a text that reads as no other value. -/
theorem readsBack_of_parseText (h : type.parseText s text = .ok v) :
    v.ReadsBack (type.parseText s) :=
  (readsAs_of_parseText h).readsBack

end ValueType

/-! ## Texts under a type -/

theorem ScalarKind.coerce_whole {width : Width} (n : Whole width) :
    (ScalarKind.whole width).coerce (.whole width n) = .ok (.whole width n) := by
  rw [coerce, fit, Whole.ofInt?_value]
  rfl

/-- A value that was read under a kind is one of the kind. -/
theorem ScalarKind.coerce_of_parse {kind : ScalarKind} {text : String} {v : Value}
    (h : kind.parse text = .ok v) : kind.coerce v = .ok v := by
  cases kind with
  | string =>
      cases h
      rfl
  | whole width =>
      simp only [parse] at h
      split at h
      · rename_i n _
        cases h
        exact coerce_whole n
      · cases h
  | float | double | boolean | decimal | date =>
      simp only [parse] at h
      split at h
      · cases h
        rfl
      · cases h

/-- A value that was read under a type has a text under the type, so it is not null. -/
theorem ValueType.toText_of_parseText {s : Schema} {type : ValueType} {text : String} {v : Value}
    (h : type.parseText s text = .ok v) : v ≠ .null ∧ ∃ written, type.toText v = .ok written := by
  obtain ⟨own, hown, -⟩ := readsBack_of_parseText h
  refine ⟨?_, ?_⟩
  · rintro rfl
    cases hown
  unfold toText
  cases readsAs_of_parseText h with
  | @scalar _ kind _ _ hleaf hread =>
      rw [hleaf]
      simp only [ScalarKind.toText]
      split
      · exact ⟨_, rfl⟩
      · rw [ScalarKind.coerce_of_parse hread, ok_bind, Value.toText, hown]
        exact ⟨own, rfl⟩
  | enum hleaf hmember =>
      rw [hleaf]
      exact ⟨text, by simp only [Value.text?, hmember, if_true]⟩
  | @reference _ _ _ name _ _ _ value hleaf haccepts =>
      rw [hleaf]
      exact ⟨ResourceRef.encode ⟨name, value⟩, by simp only [Value.ref?, haccepts, if_true]⟩

theorem ScalarKind.value_of_fit {width : Width} {n : Int} {value : Whole width}
    (h : fit width n = .ok value) : value.value = n := by
  unfold fit Whole.ofInt? at h
  split at h
  · rename_i hfits
    split at hfits
    · cases hfits
      cases h
      rfl
    · cases hfits
  · cases h

/-- A value of a kind is written as it is by itself, whatever kind it widens to. -/
theorem ScalarKind.toText?_of_toText {kind : ScalarKind} {v : Value} {text : String}
    (h : kind.toText v = .ok text) : v.toText? = some text := by
  unfold toText at h
  split at h
  · cases h
    rfl
  · rename_i hwidened
    obtain ⟨w, hw, htext⟩ := bind_eq_ok_iff.1 h
    have hsame : w.toText? = v.toText? := by
      unfold coerce at hw
      split at hw
      -- a single number under a double type
      case h_5 x => exact (hwidened x rfl rfl).elim
      -- an integer under any integer type
      case h_8 =>
        obtain ⟨n, hn, hw⟩ := bind_eq_ok_iff.1 hw
        cases hw
        rw [Value.toText?, Value.toText?, Whole.toText, Whole.toText, value_of_fit hn]
      case h_9 => cases hw
      all_goals
        cases hw
        rfl
    rw [← hsame]
    unfold Value.toText at htext
    split at htext
    · rename_i hown
      cases htext
      exact hown
    · cases htext

/-- A value is written under a type as it is by itself. -/
theorem ValueType.toText?_of_toText {type : ValueType} {v : Value} {text : String}
    (h : type.toText v = .ok text) : v.toText? = some text := by
  unfold toText at h
  split at h
  · exact ScalarKind.toText?_of_toText h
  · split at h
    · rename_i own hown
      split at h
      · cases h
        cases v with
        | text s | enum s => exact hown
        | _ => cases hown
      · cases h
    · cases h
  · split at h
    · rename_i r hr
      split at h
      · cases h
        cases v with
        | reference resourceType id =>
            cases hr
            rfl
        | _ => cases hr
      · cases h
    · cases h
  · cases h

end ResourceQuery
