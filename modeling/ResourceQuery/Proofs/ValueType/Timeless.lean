import ResourceQuery.Proofs.Schema.WellFormed
import ResourceQuery.Proofs.ValueType.Text
/-!
# Types without dates

Only dates of years with more than four digits have texts that do not read back. So where neither a
type nor any identifier behind it is a date, every text that is read gives a value whose own text
reads as that value (`parseText_toText`). Identifiers may be references in turn, and types may refer
to each other in circles; reading ends since the text of an identifier is shorter.
-/

namespace ResourceQuery

namespace ValueType

/-- A leaf under which part of a text of the type may be read: its own, and those of the
identifiers of what it may refer to. -/
inductive Involves (s : Schema) : ValueType → ValueType → Prop
  | own {type : ValueType} : Involves s type type.leaf
  | identifier {type leaf : ValueType} {target : Target} {name : String} {resource : Container}
    {identifier : Property} (htype : type.leaf = .reference target)
    (haccepts : target.accepts name = true) (hresource : s.resource name = .ok resource)
    (hidentifier : resource.identifier? = some identifier)
    (hleaf : Involves s identifier.type leaf) : Involves s type leaf

/-- No part of a text of the type is read as a date. -/
def Timeless (s : Schema) (type : ValueType) : Prop :=
  ∀ leaf, type.Involves s leaf → leaf ≠ .scalar .date

variable {s : Schema} {type : ValueType}

theorem Timeless.identifier {target : Target} {name : String} {resource : Container}
    {identifier : Property} (h : type.Timeless s) (htype : type.leaf = .reference target)
    (haccepts : target.accepts name = true) (hresource : s.resource name = .ok resource)
    (hidentifier : resource.identifier? = some identifier) : identifier.type.Timeless s :=
  fun leaf hleaf => h leaf (.identifier htype haccepts hresource hidentifier hleaf)

/-- Where no identifier at all is a date, only the type itself may be one. -/
theorem timeless_of_identifiers (hown : type.leaf ≠ .scalar .date)
    (h : ∀ c ∈ s.containers, ∀ p ∈ c.identifier?, p.type.leaf ≠ .scalar .date) :
    type.Timeless s := by
  intro leaf hleaf
  induction hleaf with
  | own => exact hown
  | identifier _ _ hresource hidentifier _ ih =>
      have hmem := (Schema.container?_some (Schema.resource_ok hresource).1).1
      exact ih (h _ hmem _ hidentifier)

end ValueType

theorem ScalarKind.fourDigitYears_of_parse {kind : ScalarKind} {text : String} {v : Value}
    (hkind : kind ≠ .date) (h : kind.parse text = .ok v) : v.FourDigitYears := by
  cases kind with
  | date => exact (hkind rfl).elim
  | string =>
      cases h
      trivial
  | _ =>
      simp only [parse] at h
      split at h
      · cases h
        trivial
      · cases h

namespace Schema

variable {s : Schema}

/-! ## Nested references -/

/-- To read a text as a reference, the text of the identifier is read as a reference. -/
def ReadsInside (s : Schema) (inner text : List Char) : Prop :=
  ∃ type identifier target,
    Text.splitFirst Value.referenceSeparator text = some (type, inner) ∧ type ≠ [] ∧ inner ≠ [] ∧
    s.referable (String.ofList text) (String.ofList type) = .ok identifier ∧
    identifier.type.leaf = .reference target

/-- A text that is read inside is read in the same way, and what it gives is the identifier. -/
theorem readReference_of_readsInside {inner text : List Char} (h : s.ReadsInside inner text) :
    ∃ (type : String) (target : Target), s.readReference text = (do
      let value ← target.accept (String.ofList inner) (← s.readReference inner)
      return ⟨type, value⟩) := by
  obtain ⟨type, identifier, target, hsplit, htype, hinner, hreferable, hleaf⟩ := h
  refine ⟨String.ofList type, target, ?_⟩
  rw [readReference]
  split
  · rename_i hnone
    rw [hsplit] at hnone
    cases hnone
  · rename_i type' inner' hsplit'
    rw [hsplit] at hsplit'
    cases hsplit'
    have hempty : (type.isEmpty || inner.isEmpty) = false := by simp [htype, hinner]
    simp only [hempty, Bool.false_eq_true, if_false, hreferable, ok_bind, hleaf]

/-- References are nested in a text to a finite depth. -/
theorem wellFounded_readsInside (s : Schema) : WellFounded s.ReadsInside := by
  refine Subrelation.wf (r := (measure List.length).rel) ?_ (measure List.length).wf
  rintro inner text ⟨_, _, _, hsplit, -⟩
  exact Text.length_of_splitFirst hsplit

/-! ## References -/

/-- What is written with the type of the identifier at hand is what is written without. -/
theorem encode_of_referenceToText {r : ResourceRef} {text : String}
    (h : s.referenceToText r = .ok text) : text = r.encode := by
  obtain ⟨resource, hresource, h⟩ := bind_eq_ok_iff.1 h
  have hname := (container?_some (resource_ok hresource).1).2
  split at h
  · obtain ⟨id, hid, h⟩ := bind_eq_ok_iff.1 h
    cases h
    rw [ResourceRef.encode, Value.describe, ValueType.toText?_of_toText hid, hname]
    rfl
  · cases h

theorem referenceToText_of_parseReference {r : ResourceRef} {text : String}
    (h : s.parseReference text = .ok r) : s.referenceToText r = .ok r.encode := by
  obtain ⟨type, value⟩ := r
  obtain ⟨id, resource, identifier, -, hresource, hidentifier, hvalue⟩ :=
    parseReference_eq_ok_iff.1 h
  obtain ⟨-, written, hwritten⟩ := ValueType.toText_of_parseText hvalue
  have htext : s.referenceToText ⟨type, value⟩ = .ok (resource.name ++ "#" ++ written) := by
    simp only [referenceToText, hresource, ok_bind, hidentifier, hwritten]
    rfl
  rw [htext, encode_of_referenceToText htext]

end Schema

namespace ValueType

variable {s : Schema} {type : ValueType}

theorem fourDigitYears_of_parseText {text : String} {v : Value} (htype : type.Timeless s)
    (h : type.parseText s text = .ok v) : v.FourDigitYears := by
  replace h := readsAs_of_parseText h
  induction h with
  | scalar hleaf hread =>
      refine ScalarKind.fourDigitYears_of_parse ?_ hread
      rintro rfl
      exact htype _ .own hleaf
  | enum => trivial
  | reference hleaf haccepts _ hresource hidentifier _ ih =>
      exact ih (htype.identifier hleaf haccepts hresource hidentifier)

/-- The text of a value that was read under a type without dates reads as the value. Of a reference
it is the text that is written with or without the schema, and it reads as the reference. -/
theorem parseText_toText {text : String} {v : Value} (htype : type.Timeless s)
    (h : type.parseText s text = .ok v) :
    (∃ written, type.toText v = .ok written ∧ type.parseText s written = .ok v ∧
      ∀ r, v = .ofRef r → r.encode = written ∧ s.referenceToText r = .ok written ∧
        s.parseReference written = .ok r) ∧
      WellFounded s.ReadsInside := by
  obtain ⟨-, written, hwritten⟩ := toText_of_parseText h
  obtain ⟨own, hown, -, hagain⟩ := readsBack_of_parseText h
  rw [toText?_of_toText hwritten] at hown
  cases hown
  have hread := hagain (fourDigitYears_of_parseText htype h)
  refine ⟨⟨written, hwritten, hread, ?_⟩, s.wellFounded_readsInside⟩
  rintro r rfl
  have hreference : s.parseReference written = .ok r := by
    cases hleaf : type.leaf with
    | scalar kind =>
        rw [parseText_scalar hleaf] at hread
        have hcoerce := ScalarKind.coerce_of_parse hread
        cases kind <;> cases hcoerce
    | enum members =>
        rw [parseText_enum hleaf] at hread
        cases (parseMember_eq_ok_iff.1 hread).2
    | reference target =>
        obtain ⟨other, hother, -, heq⟩ := (parseText_reference_eq_ok_iff hleaf).1 hread
        rw [Value.ofRef_injective heq]
        exact hother
    | _ =>
        rw [parseText, hleaf] at hread
        cases hread
  have hencode : written = r.encode :=
    Option.some.inj ((toText?_of_toText hwritten).symm.trans rfl)
  exact ⟨hencode.symm, hencode ▸ Schema.referenceToText_of_parseReference hreference, hreference⟩

/-- Eggs by their sizes, and nests by what lies in them, which may be a nest. -/
def nestDocument : SchemaDocument where
  resources :=
    [{ name := "Egg"
       properties := [{ name := "size", kind := some .id, type := "decimal" }] },
      { name := "Nest"
        properties := [{ name := "content", kind := some .id, type := "ref(*)" }] }]
  objects := []

def nestSchema : Schema :=
  let size : Property :=
    { name := "size", kind := .id, type := .scalar .decimal, settable := true,
      persistence := some ⟨"size", none⟩ }
  let content : Property :=
    { name := "content", kind := .id, type := .reference .any, settable := true,
      persistence := some ⟨"content", none⟩ }
  ⟨[⟨"Egg", .resource true, .plain, [size]⟩, ⟨"Nest", .resource true, .plain, [content]⟩]⟩

theorem nests_parseText_toText : nestDocument.build = .ok nestSchema ∧
    (reference (.resource "Nest")).Timeless nestSchema ∧
    ∃ v, (reference (.resource "Nest")).parseText nestSchema "Nest#Nest#Egg#+01.50" = .ok v ∧
      v.toText? = some "Nest#Nest#Egg#1.50" ∧
      ∃ written, (reference (.resource "Nest")).toText v = .ok written ∧
        (reference (.resource "Nest")).parseText nestSchema written = .ok v := by
  have htimeless : (reference (.resource "Nest")).Timeless nestSchema :=
    timeless_of_identifiers (by decide) (by decide)
  have hread : (reference (.resource "Nest")).parseText nestSchema "Nest#Nest#Egg#+01.50" = .ok
      (.reference "Nest" (.reference "Nest" (.reference "Egg" (.decimal ⟨false, 150, 2⟩)))) := by
    have hegg : (reference .any).ReadsAs nestSchema "Egg#+01.50"
        (.reference "Egg" (.decimal ⟨false, 150, 2⟩)) :=
      .reference rfl rfl rfl rfl rfl (.scalar rfl rfl)
    have hnest : (reference .any).ReadsAs nestSchema "Nest#Egg#+01.50"
        (.reference "Nest" (.reference "Egg" (.decimal ⟨false, 150, 2⟩))) :=
      .reference rfl rfl rfl rfl rfl hegg
    exact parseText_of_readsAs (.reference rfl rfl rfl rfl rfl hnest)
  obtain ⟨⟨written, hwritten, hagain, -⟩, -⟩ := parseText_toText htimeless hread
  exact ⟨toOption_eq_some_iff.1 (by decide +kernel), htimeless, _, hread, by decide +kernel,
    written, hwritten, hagain⟩

end ValueType

end ResourceQuery
