import ResourceQuery.Session.Write
/-!
# Properties that a document does not show

A property is shown to a principal if the container of its object has it, if it can be got and if
the principal may see it. Erasing all others, at any depth, leaves every written document as it is
(`writeAt_erase`), so two values that differ in such properties only cannot be told apart by what
is written of them, nor by the fault that stops the writing.
-/

namespace ResourceQuery

namespace Schema

/-- The container has the property and shows it to the principal. -/
def shows (s : Schema) (principal : Option Principal) (typeName name : String) : Bool :=
  (s.container? typeName).any fun c => c.properties.any fun p =>
    p.name == name && p.gettable && p.access.permits .see principal

end Schema

namespace Value

mutual

/-- The value without the properties that are not shown, in all objects at any depth. -/
def erase (shown : String → String → Bool) : Value → Value
  | reference resourceType id => reference resourceType (erase shown id)
  | object typeName properties => object typeName (eraseProperties shown typeName properties)
  | list items => list (eraseItems shown items)
  | set items => set (eraseItems shown items)
  | map entries => map (eraseEntries shown entries)
  | leaf => leaf

def eraseProperties (shown : String → String → Bool) (typeName : String) :
    List (String × Value) → List (String × Value)
  | [] => []
  | (name, value) :: rest =>
    if shown typeName name then (name, erase shown value) :: eraseProperties shown typeName rest
    else eraseProperties shown typeName rest

def eraseItems (shown : String → String → Bool) : List Value → List Value
  | [] => []
  | item :: rest => erase shown item :: eraseItems shown rest

def eraseEntries (shown : String → String → Bool) : List (Value × Value) → List (Value × Value)
  | [] => []
  | (key, item) :: rest => (erase shown key, erase shown item) :: eraseEntries shown rest

end

section

variable (shown : String → String → Bool)

attribute [local simp] erase

/-! ## What erasing keeps of a value -/

theorem kindName_erase (v : Value) : (v.erase shown).kindName = v.kindName := by
  cases v <;> simp [kindName]

theorem isNull_erase (v : Value) : (v.erase shown).isNull = v.isNull := by
  cases v <;> simp [isNull]

theorem text?_erase (v : Value) : (v.erase shown).text? = v.text? := by
  cases v <;> simp [text?]

theorem toText?_erase : ∀ v : Value, (v.erase shown).toText? = v.toText?
  | reference resourceType id => by
    simp only [erase, toText?, toText?_erase id, kindName_erase]
  | null | bool _ | whole _ _ | float _ | double _ | decimal _ | date _ | text _ | enum _ => by
    simp only [erase]
  | object _ _ | list _ | set _ | map _ => by simp only [erase, toText?]

theorem describe_erase (v : Value) : (v.erase shown).describe = v.describe := by
  simp only [describe, toText?_erase, kindName_erase]

theorem toText_erase (v : Value) : (v.erase shown).toText = v.toText := by
  simp only [toText, toText?_erase, kindName_erase]

/-- The reference in a value, as far as texts show it. -/
theorem ref?_erase (v : Value) :
    (v.erase shown).ref? = v.ref?.map fun r => ⟨r.resourceType, r.id.erase shown⟩ := by
  cases v <;> simp [ref?]

theorem encode_erase (r : ResourceRef) :
    ResourceRef.encode ⟨r.resourceType, r.id.erase shown⟩ = r.encode := by
  simp only [ResourceRef.encode, describe_erase]

/-! ## Texts and leaves -/

theorem coerce_erase (kind : ScalarKind) (v : Value) :
    kind.coerce (v.erase shown) = kind.coerce v := by
  have hdescribe := describe_erase shown v
  cases v with
  | reference _ _ | object _ _ | list _ | set _ | map _ =>
      simp only [erase] at hdescribe ⊢
      cases kind <;> simp only [ScalarKind.coerce, hdescribe]
  | _ => simp only [erase]

theorem scalarText_erase (kind : ScalarKind) (v : Value) :
    kind.toText (v.erase shown) = kind.toText v := by
  have hcoerce := coerce_erase shown kind v
  cases v with
  | reference _ _ | object _ _ | list _ | set _ | map _ =>
      simp only [erase] at hcoerce ⊢
      cases kind <;> simp only [ScalarKind.toText, hcoerce]
  | _ => simp only [erase]

theorem typedText_erase (type : ValueType) (v : Value) :
    type.toText (v.erase shown) = type.toText v := by
  simp only [ValueType.toText, scalarText_erase, text?_erase, ref?_erase, describe_erase]
  cases type.leaf with
  | reference target => cases v.ref? <;> simp [encode_erase]
  | _ => rfl

theorem keyText_erase (type : ValueType) (key : Value) :
    keyText type (key.erase shown) = keyText type key := by
  simp only [keyText, toText_erase, typedText_erase]

theorem writeLeaf_erase (v : Value) (type : ValueType) :
    (v.erase shown).writeLeaf type = v.writeLeaf type := by
  simp only [writeLeaf, coerce_erase, typedText_erase, ref?_erase, describe_erase]
  cases type with
  | reference target => cases v.ref? <;> simp [encode_erase]
  | _ => rfl

end

end Value

/-! ## Objects -/

theorem Writing.lift_bind_congr {α β : Type} {outcome : Except Fault α} {f g : α → Writing β}
    (h : ∀ a, outcome = .ok a → f a = g a) :
    (Writing.lift outcome >>= f) = (Writing.lift outcome >>= g) := by
  cases outcome with
  | error fault => rfl
  | ok a => simp only [Writing.lift, pure_bind, h a rfl]

theorem Writing.forM_congr {α : Type} {items : List α} {f g : α → Writing Unit}
    (h : ∀ a ∈ items, f a = g a) : items.forM f = items.forM g := by
  induction items with
  | nil => rfl
  | cons a rest ih =>
      have hrest : rest.forM f = rest.forM g := ih fun b hb => h b (by simp [hb])
      show (f a >>= fun _ => rest.forM f) = (g a >>= fun _ => rest.forM g)
      rw [h a (by simp), hrest]

/-- The container that an object is written with is the one that its type names. -/
theorem Schema.container?_of_concrete {s : Schema} {declaredName typeName : String}
    {declared c : Container} (hdeclared : s.container declaredName = .ok declared)
    (hc : s.concrete declared typeName = .ok c) : s.container? typeName = some c := by
  have hname : s.container? declared.name = some declared := by
    have hfound := container_eq_ok_iff.1 hdeclared
    have heq : declared.name = declaredName := by simpa using List.find?_some hfound
    rw [heq, hfound]
  unfold Schema.concrete at hc
  split at hc
  · rename_i heq
    obtain rfl : declared = c := by simpa using hc
    rw [← heq, hname]
  · split at hc
    · split at hc
      · rename_i found hfound
        obtain rfl : found = c := by simpa using hc
        exact hfound
      · cases hc
    · cases hc

namespace Value

theorem writeProperty_congr {o : WriteOptions} {path : String} {p : Property}
    {values others : NameMap WritableProperty}
    (h : o.admits (WriteOptions.propertyPath path p.name) p = true →
      values.find? p.name = others.find? p.name) :
    writeProperty o path values p = writeProperty o path others p := by
  unfold writeProperty
  cases hadmits : o.admits (WriteOptions.propertyPath path p.name) p with
  | false => simp [hadmits]
  | true => simp only [hadmits, h hadmits]

theorem writeObject_congr {s : Schema} {o : WriteOptions} {declaredName typeName path : String}
    {values others : NameMap WritableProperty}
    (h : ∀ name, s.shows o.principal typeName name = true →
      values.find? name = others.find? name) :
    writeObject s o declaredName typeName path values =
      writeObject s o declaredName typeName path others := by
  unfold writeObject
  refine Writing.lift_bind_congr fun declared hdeclared => ?_
  refine Writing.lift_bind_congr fun c hc => ?_
  have hcontainer := Schema.container?_of_concrete hdeclared hc
  have hproperties : ∀ p ∈ c.properties,
      writeProperty o path values p = writeProperty o path others p := by
    intro p hp
    apply writeProperty_congr
    intro hadmits
    apply h p.name
    simp only [WriteOptions.admits, Bool.and_eq_true] at hadmits
    simp only [Schema.shows, hcontainer, Option.any_some, List.any_eq_true, Bool.and_eq_true]
    exact ⟨p, hp, ⟨by simp, hadmits.1.1⟩, hadmits.1.2⟩
  simp only
  rw [Writing.forM_congr fun p hp => hproperties p (List.mem_filter.1 hp).1]

/-! ## Values -/

section

variable (s : Schema) (o : WriteOptions)

mutual

/-- What is written of a value does not depend on the properties that are not shown. -/
theorem writeAt_erase : ∀ v : Value,
    writeAt s o (v.erase (s.shows o.principal)) = writeAt s o v
  | object typeName properties => by
    funext type path
    have hfind := fun name hname => find?_eraseProperties typeName properties name hname
    simp only [erase, writeAt, ValueType.ofValue]
    split
    · exact writeObject_congr hfind
    · have := writeLeaf_erase (s.shows o.principal) (object typeName properties)
      simp only [erase] at this
      rw [this]
  | list items => by
    funext type path
    have hleaf := writeLeaf_erase (s.shows o.principal) (list items)
    simp only [erase] at hleaf
    simp only [erase, writeAt, ValueType.ofValue, writeItems_erase items, hleaf]
  | set items => by
    funext type path
    have hleaf := writeLeaf_erase (s.shows o.principal) (set items)
    simp only [erase] at hleaf
    simp only [erase, writeAt, ValueType.ofValue, writeItems_erase items, hleaf]
  | map entries => by
    funext type path
    have hleaf := writeLeaf_erase (s.shows o.principal) (map entries)
    simp only [erase] at hleaf
    simp only [erase, writeAt, ValueType.ofValue, writeEntries_erase entries, hleaf]
  | reference resourceType id => by
    funext type path
    have hleaf := writeLeaf_erase (s.shows o.principal) (reference resourceType id)
    simp only [erase] at hleaf
    simp only [erase, writeAt, ValueType.ofValue, hleaf]
  | null | bool _ | whole _ _ | float _ | double _ | decimal _ | date _ | text _ | enum _ => by
    simp only [erase]

theorem writeItems_erase : ∀ (items : List Value),
    writeItems s o (eraseItems (s.shows o.principal) items) = writeItems s o items
  | [] => by simp only [eraseItems]
  | item :: rest => by
    funext type path
    simp only [eraseItems, writeItems, writeAt_erase item, writeItems_erase rest]

theorem writeEntries_erase : ∀ (entries : List (Value × Value)),
    writeEntries s o (eraseEntries (s.shows o.principal) entries) = writeEntries s o entries
  | [] => by simp only [eraseEntries]
  | (key, item) :: rest => by
    funext keyType type path
    simp only [eraseEntries, writeEntries, keyText_erase, writeAt_erase item,
      writeEntries_erase rest]

/-- A shown property is found with the same value; one that is not shown is not asked for. -/
theorem find?_eraseProperties (typeName : String) : ∀ (properties : List (String × Value))
    (name : String), s.shows o.principal typeName name = true →
    NameMap.find? name (writableProperties s o
        (eraseProperties (s.shows o.principal) typeName properties)) =
      NameMap.find? name (writableProperties s o properties)
  | [], _, _ => by simp only [eraseProperties]
  | (key, value) :: rest, name, hname => by
    have ih := find?_eraseProperties typeName rest name hname
    by_cases hkey : s.shows o.principal typeName key = true
    · simp only [eraseProperties, hkey, if_true, writableProperties, NameMap.find?,
        isNull_erase, writeAt_erase value, ih]
    · have hne : key ≠ name := by
        rintro rfl
        exact hkey hname
      simp only [eraseProperties, hkey, writableProperties, NameMap.find?, if_neg hne]
      exact ih

end

end

end Value

namespace ValueType

/-- Values that agree in all that a principal is shown give one document, or one fault. -/
theorem document_eq_of_erase_eq (s : Schema) (o : WriteOptions) (type : ValueType) (v w : Value)
    (h : v.erase (s.shows o.principal) = w.erase (s.shows o.principal)) :
    type.document s o v = type.document s o w := by
  have hwrite : v.writeAt s o = w.writeAt s o := by
    rw [← Value.writeAt_erase s o v, h, Value.writeAt_erase s o w]
  simp only [document, write, hwrite]

/-- Salaries that only one role may see, and reports that are people again. -/
def salarySchema : Schema :=
  ⟨[{ name := "Person", role := .resource true, shape := .plain
      table := .ofList
        [{ name := "name", kind := .simple, type := .string, settable := true },
          { name := "salary", kind := .simple, type := .scalar .decimal, settable := true
            access := ⟨[(.see, .roles ["hr"])]⟩ },
          { name := "reports", kind := .object, type := .list (.object "Person"),
            settable := true }] }]⟩

def salaried (salary : Nat) (reports : List Value) : Value :=
  .object "Person" [("name", .text "Ann"), ("reports", .list reports),
    ("salary", .decimal ⟨false, salary, 0⟩)]

/-- Bob, who has no role, cannot tell apart salaries, his reports' included. -/
theorem document_salaried :
    (salaried 1 [salaried 2 []]).erase (salarySchema.shows (some ⟨some "Bob", []⟩)) =
        (salaried 3 [salaried 4 []]).erase (salarySchema.shows (some ⟨some "Bob", []⟩)) ∧
      (ValueType.object "Person").document salarySchema
          { principal := some ⟨some "Bob", []⟩ } (salaried 1 [salaried 2 []]) =
        (ValueType.object "Person").document salarySchema
          { principal := some ⟨some "Bob", []⟩ } (salaried 3 [salaried 4 []]) :=
  ⟨rfl, document_eq_of_erase_eq salarySchema { principal := some ⟨some "Bob", []⟩ }
    (.object "Person") (salaried 1 [salaried 2 []]) (salaried 3 [salaried 4 []]) rfl⟩

end ValueType

end ResourceQuery
