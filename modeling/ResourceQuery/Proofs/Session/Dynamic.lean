import ResourceQuery.Proofs.Schema.WellFormed
import ResourceQuery.Proofs.Session.Emission
import ResourceQuery.Proofs.ValueType.Text
/-!
# Values that tell their types

Under the dynamic type every part of a value is written under the type that it tells of itself. What
can be written under a declared type is written in the same way (`ValueType.write_dynamic`):
declared types only restrict what is written, and the container of an object has all that is
declared for the objects of its base.
-/

namespace ResourceQuery

namespace Writing

variable {α β : Type}

/-- What the first writes without a fault, the second writes as well, whatever is open. -/
def Within (w w' : Writing α) : Prop :=
  ∀ output a final, w.outcome output = (.ok a, final) → w'.outcome output = (.ok a, final)

theorem Within.refl (w : Writing α) : w.Within w := fun _ _ _ h => h

theorem Within.trans {w w' w'' : Writing α} (h : w.Within w') (h' : w'.Within w'') :
    w.Within w'' := fun output a final hrun => h' output a final (h output a final hrun)

theorem Within.bind {w w' : Writing α} {f g : α → Writing β} (h : w.Within w')
    (hf : ∀ a, (f a).Within (g a)) : (w >>= f).Within (w' >>= g) := by
  intro output b final hrun
  obtain ⟨a, between, hw, hrun⟩ := outcome_bind_ok.1 hrun
  exact outcome_bind_ok.2 ⟨a, between, h _ _ _ hw, hf a _ _ _ hrun⟩

theorem within_throw (fault : Fault) (w : Writing α) : (throw fault : Writing α).Within w := by
  intro output a final hrun
  cases hrun

theorem within_lift {x y : Except Fault α} (h : ∀ a, x = .ok a → y = .ok a) :
    (lift x).Within (lift y) := by
  intro output a final hrun
  obtain ⟨ha, rfl⟩ := outcome_lift_ok.1 hrun
  exact outcome_lift_ok.2 ⟨h a ha, rfl⟩

theorem within_of_lift {x : Except Fault α} {f : α → Writing β} {w : Writing β}
    (h : ∀ a, x = .ok a → (f a).Within w) : (lift x >>= f).Within w := by
  intro output b final hrun
  obtain ⟨a, between, hlift, hwritten⟩ := outcome_bind_ok.1 hrun
  obtain ⟨ha, hbetween⟩ := outcome_lift_ok.1 hlift
  rw [hbetween] at hwritten
  exact h a ha _ _ _ hwritten

theorem within_lift_bind {x : Except Fault α} {f : α → Writing β} {w : Writing β} {a : α}
    (hx : x = .ok a) (h : w.Within (f a)) : w.Within (lift x >>= f) := by
  intro output b final hrun
  exact outcome_bind_ok.2 ⟨a, output, outcome_lift_ok.2 ⟨hx, rfl⟩, h _ _ _ hrun⟩

end Writing

open Writing (Within)

namespace Value

variable {d : SchemaDocument} {s : Schema} {o : WriteOptions}

/-! ## Leaves -/

/-- A value is written under a kind as it is by itself. -/
theorem writeLeaf_of_coerce {kind : ScalarKind} {v w : Value} (h : kind.coerce v = .ok w) :
    JsonOutput.writeLeaf w = JsonOutput.writeLeaf v := by
  unfold ScalarKind.coerce at h
  split at h
  -- an integer under any integer type
  case h_8 =>
    obtain ⟨n, hn, h⟩ := bind_eq_ok_iff.1 h
    cases h
    simp only [JsonOutput.writeLeaf, ScalarKind.value_of_fit hn]
  case h_9 => cases h
  all_goals
    cases h
    rfl

theorem within_writeLeaf (v : Value) (type : ValueType) :
    (v.writeLeaf type).Within (JsonOutput.writeLeaf v) := by
  unfold Value.writeLeaf
  split
  · refine Writing.within_of_lift fun w hw => ?_
    rw [writeLeaf_of_coerce hw]
    exact .refl _
  · refine Writing.within_of_lift fun text htext => ?_
    have hemit : JsonOutput.writeLeaf v = JsonOutput.writeText text := by
      cases v with
      | text _ | enum _ =>
          have hown := ValueType.toText?_of_toText htext
          simp only [JsonOutput.writeLeaf, hown]
      | _ => cases htext
    rw [hemit]
    exact .refl _
  · split
    · rename_i r hr
      split
      · cases v with
        | reference resourceType id =>
            cases hr
            exact .refl _
        | _ => cases hr
      · exact Writing.within_throw _ _
    · exact Writing.within_throw _ _
  · exact Writing.within_throw _ _

/-- What has a text or is a plain number is written under the type that it tells of itself. -/
theorem writeLeaf_ofValue {v : Value} (h : (ValueType.ofValue v).isKeyable = true) :
    v.writeLeaf (.ofValue v) = JsonOutput.writeLeaf v := by
  cases v with
  | whole width n =>
      simp only [writeLeaf, ValueType.ofValue, ScalarKind.coerce_whole n]
      rfl
  | enum s =>
      have htext : (ValueType.enum [s]).toText (.enum s) = .ok s := by
        simp [ValueType.toText, ValueType.leaf, text?]
      simp only [writeLeaf, ValueType.ofValue, htext]
      rfl
  | reference resourceType id =>
      have haccepts : (Target.ofName resourceType).accepts resourceType = true := by
        unfold Target.ofName
        split <;> simp [Target.accepts]
      simp only [writeLeaf, ValueType.ofValue, ref?, haccepts, if_true]
      rfl
  | bool _ | float _ | double _ | decimal _ | date _ | text _ => rfl
  | _ => cases h

theorem keyText_dynamic {type : ValueType} {key : Value} {text : String}
    (h : keyText type key = .ok text) : keyText .dynamic key = .ok text := by
  unfold keyText at h
  split at h
  · exact h
  · simp only [keyText, Value.toText, ValueType.toText?_of_toText h]

/-! ## Objects -/

/-- The container of an object has the discriminator of the declared one. -/
theorem discriminator?_of_concrete (hbuild : d.build = .ok s) {declaredName typeName : String}
    {declared c : Container} (hdeclared : s.container declaredName = .ok declared)
    (hc : s.concrete declared typeName = .ok c) : c.discriminator? = declared.discriminator? := by
  have hwellFormed := SchemaDocument.build_wellFormed hbuild
  obtain ⟨hmem, -⟩ := Schema.container?_some (Schema.container_eq_ok_iff.1 hdeclared)
  have hown := Schema.container?_of_concrete hdeclared hc
  unfold Schema.concrete at hc
  split at hc
  · cases hc
    rfl
  · split at hc
    · rename_i hvariant
      have htag : typeName ∈ declared.variants := by simpa using hvariant
      obtain ⟨v, hv, -, hbase⟩ := hwellFormed.variants declared hmem typeName htag
      obtain rfl : v = c := Option.some.inj (hv.symm.trans hown)
      obtain ⟨base, own, hfound, hproperties, -⟩ :=
        hwellFormed.inherited v (Schema.container?_some hown).1 declared.name hbase
      rw [hwellFormed.found declared hmem] at hfound
      cases hfound
      -- the properties of the declared container come first
      obtain ⟨_, _, hshape, -⟩ := Schema.shape_of_mem_variants htag
      have hpolymorphic : declared.isPolymorphic = true := by
        simp [Container.isPolymorphic, hshape]
      obtain ⟨p, hp⟩ := Option.isSome_iff_exists.1
        (hwellFormed.marked declared hmem (.inl hpolymorphic))
      rw [hp, Container.discriminator?, hproperties, List.find?_append]
      unfold Container.discriminator? at hp
      rw [hp]
      rfl
    · cases hc

theorem within_writeObject (hbuild : d.build = .ok s) (declaredName typeName path : String)
    (values : NameMap WritableProperty) :
    (writeObject s o declaredName typeName path values).Within
      (writeObject s o typeName typeName path values) := by
  unfold writeObject
  refine Writing.within_of_lift fun declared hdeclared => Writing.within_of_lift fun c hc => ?_
  have hown := Schema.container?_of_concrete hdeclared hc
  have hname : c.name = typeName := (Schema.container?_some hown).2
  have hconcrete : s.concrete c typeName = .ok c := by simp [Schema.concrete, hname]
  refine Writing.within_lift_bind (Schema.container_eq_ok_iff.2 hown) ?_
  refine Writing.within_lift_bind hconcrete ?_
  rw [discriminator?_of_concrete hbuild hdeclared hc]
  exact .refl _

/-! ## Values -/

theorem within_collection {w w' : Writing Unit} (h : w.Within w') :
    (do JsonOutput.beginCollection; w; JsonOutput.endCollection : Writing Unit).Within
      (do JsonOutput.beginCollection; w'; JsonOutput.endCollection) :=
  (Within.refl _).bind fun _ => h.bind fun _ => .refl _

/-- Nothing that has parts is written like a text. -/
theorem within_of_writeLeaf {v : Value} {type : ValueType} (w : Writing Unit)
    (h : ∃ fault, JsonOutput.writeLeaf v = throw fault) : (v.writeLeaf type).Within w := by
  obtain ⟨fault, hfault⟩ := h
  have hleaf := within_writeLeaf v type
  rw [hfault] at hleaf
  exact hleaf.trans (Writing.within_throw fault w)

mutual

/-- A value is written under the type that it tells if it is written under any type. -/
theorem within_writeAt (hbuild : d.build = .ok s) :
    ∀ (v : Value) (type : ValueType) (path : String),
      (writeAt s o v type path).Within (writeAt s o v .dynamic path)
  | null, _, _ => by
    simp only [writeAt]
    exact .refl _
  | object typeName properties, type, path => by
    simp only [writeAt, if_true, ValueType.ofValue]
    split
    · exact within_writeObject hbuild _ _ _ _
    · exact within_of_writeLeaf _ ⟨_, rfl⟩
  | list items, type, path => by
    simp only [writeAt, if_true, ValueType.ofValue]
    split
    · exact within_collection (within_writeItems hbuild items _ path)
    · exact within_collection (within_writeItems hbuild items _ path)
    · exact within_of_writeLeaf _ ⟨_, rfl⟩
  | set items, type, path => by
    simp only [writeAt, if_true, ValueType.ofValue]
    split
    · exact within_collection (within_writeItems hbuild items _ path)
    · exact within_collection (within_writeItems hbuild items _ path)
    · exact within_of_writeLeaf _ ⟨_, rfl⟩
  | map entries, type, path => by
    simp only [writeAt, if_true, ValueType.ofValue]
    split
    · exact (Within.refl _).bind fun _ =>
        (within_writeEntries hbuild entries _ _ path).bind fun _ => .refl _
    · exact within_of_writeLeaf _ ⟨_, rfl⟩
  | bool _, type, path | whole _ _, type, path | float _, type, path | double _, type, path
  | decimal _, type, path | date _, type, path | text _, type, path | enum _, type, path
  | reference _ _, type, path => by
    simp only [writeAt, if_true]
    rw [writeLeaf_ofValue rfl]
    exact within_writeLeaf _ _

theorem within_writeItems (hbuild : d.build = .ok s) :
    ∀ (items : List Value) (type : ValueType) (path : String),
      (writeItems s o items type path).Within (writeItems s o items .dynamic path)
  | [], _, _ => by
    simp only [writeItems]
    exact .refl _
  | item :: rest, type, path => by
    simp only [writeItems]
    exact (within_writeAt hbuild item type path).bind fun _ =>
      within_writeItems hbuild rest type path

theorem within_writeEntries (hbuild : d.build = .ok s) :
    ∀ (entries : List (Value × Value)) (keyType type : ValueType) (path : String),
      (writeEntries s o entries keyType type path).Within
        (writeEntries s o entries .dynamic .dynamic path)
  | [], _, _, _ => by
    simp only [writeEntries]
    exact .refl _
  | (key, item) :: rest, keyType, type, path => by
    simp only [writeEntries]
    exact (Writing.within_lift fun _ => keyText_dynamic).bind fun _ => (Within.refl _).bind fun _ =>
      (within_writeAt hbuild item type path).bind fun _ =>
        within_writeEntries hbuild rest keyType type path

end

end Value

namespace ValueType

variable {d : SchemaDocument} {s : Schema} {o : WriteOptions} {type : ValueType} {v : Value}

/-- What is written of a value under a type is written under the dynamic type too, into whatever is
open, and so it is the same document. -/
theorem write_dynamic (hbuild : d.build = .ok s) :
    (type.write s o v).Within (dynamic.write s o v) ∧
      ∀ document, type.document s o v = .ok document → dynamic.document s o v = .ok document := by
  have hwithin : (type.write s o v).Within (dynamic.write s o v) :=
    Value.within_writeAt hbuild v type ""
  refine ⟨hwithin, fun document h => ?_⟩
  unfold ValueType.document at h ⊢
  split at h
  · rename_i output hrun
    have hdynamic : (dynamic.write s o v).run.run .start = (.ok (), output) :=
      hwithin _ _ _ hrun
    rw [hdynamic]
    exact h
  · cases h

/-- A set of payments under a key that is no member of an enum but its text. -/
def keyedPayments : Value :=
  .map [(.text "due", .set [.object "Card" [("number", .text "4111")], .null])]

theorem keyedPayments_dynamic : orderDocument.build = .ok orderSchema ∧
    ∃ document, document = .object [("due", .array
        [.object [("method", .string "Card"), ("number", .string "4111")], .null])] ∧
      (map (.enum ["due"]) (.list (.object "Payment"))).document orderSchema {} keyedPayments =
        .ok document ∧
      dynamic.document orderSchema {} keyedPayments = .ok document := by
  have hbuild : orderDocument.build = .ok orderSchema := rfl
  have htyped : (map (.enum ["due"]) (.list (.object "Payment"))).document orderSchema {}
      keyedPayments = .ok (.object [("due", .array
        [.object [("method", .string "Card"), ("number", .string "4111")], .null])]) := rfl
  exact ⟨hbuild, _, rfl, htyped, (write_dynamic hbuild).2 _ htyped⟩

end ValueType

end ResourceQuery
