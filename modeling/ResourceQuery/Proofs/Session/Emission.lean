import ResourceQuery.Proofs.NameMap
import ResourceQuery.Proofs.Session.Visibility
/-!
# What writing puts into a document

A piece of writing that ends well puts one value to where the next value belongs. `Emits` says which
value this can be, whatever is open; collections, maps and objects are put together from the values
that their parts emit.
-/

namespace ResourceQuery

namespace Value

/-! ## Values by their parts -/

/-- Nothing stands inside the value. -/
def isPlain : Value → Bool
  | object _ _ | list _ | set _ | map _ => false
  | _ => true

theorem sizeOf_snd_lt {α : Type} [SizeOf α] {entries : List (α × Value)} {entry : α × Value}
    (h : entry ∈ entries) : sizeOf entry.2 < sizeOf entries := by
  have hentry := List.sizeOf_lt_of_mem h
  obtain ⟨key, v⟩ := entry
  rw [Prod.mk.sizeOf_spec] at hentry
  show sizeOf v < sizeOf entries
  omega

/-- What holds of a structure if it holds of the values in it holds of all values. -/
theorem byParts {Q : Value → Prop} (plain : ∀ v : Value, v.isPlain = true → Q v)
    (object : ∀ typeName properties, (∀ entry ∈ properties, Q entry.2) →
      Q (.object typeName properties))
    (list : ∀ items, (∀ item ∈ items, Q item) → Q (.list items))
    (set : ∀ items, (∀ item ∈ items, Q item) → Q (.set items))
    (map : ∀ entries, (∀ entry ∈ entries, Q entry.2) → Q (.map entries)) : ∀ v : Value, Q v
  | .object typeName properties => object typeName properties fun entry hentry =>
    have := sizeOf_snd_lt hentry
    byParts plain object list set map entry.2
  | .list items => list items fun item _ => byParts plain object list set map item
  | .set items => set items fun item _ => byParts plain object list set map item
  | .map entries => map entries fun entry hentry =>
    have := sizeOf_snd_lt hentry
    byParts plain object list set map entry.2
  | .null | .bool _ | .whole _ _ | .float _ | .double _ | .decimal _ | .date _ | .text _ | .enum _
  | .reference _ _ => plain _ rfl

/-- Under a name stands what is written of the property. -/
theorem find?_writableProperties (s : Schema) (o : WriteOptions) (name : String)
    (properties : List (String × Value)) :
    NameMap.find? name (writableProperties s o properties) =
      (NameMap.find? name properties).map fun v => ⟨v.isNull, v.writeAt s o⟩ := by
  induction properties with
  | nil => rw [writableProperties, NameMap.find?_nil, NameMap.find?_nil]; rfl
  | cons entry rest ih =>
      obtain ⟨key, value⟩ := entry
      rw [writableProperties, NameMap.find?, NameMap.find?]
      split
      · rfl
      · exact ih

end Value

namespace Writing

variable {α β : Type}

/-- What writing answers, and the output behind it. -/
def outcome (w : Writing α) (output : JsonOutput) : Except Fault α × JsonOutput :=
  w.run.run output

theorem outcome_bind_ok {w : Writing α} {f : α → Writing β} {b : β} {output final : JsonOutput} :
    (w >>= f).outcome output = (.ok b, final) ↔
      ∃ a between, w.outcome output = (.ok a, between) ∧ (f a).outcome between = (.ok b, final) := by
  have hbind : (w >>= f).outcome output =
      match w.outcome output with
      | (.ok a, between) => (f a).outcome between
      | (.error fault, between) => (.error fault, between) := by
    change (ExceptT.run (w >>= f)).run output = _
    rw [ExceptT.run_bind, StateT.run_bind]
    unfold outcome
    rcases (ExceptT.run w).run output with ⟨_ | a, between⟩ <;> rfl
  rw [hbind]
  rcases w.outcome output with ⟨_ | a, between⟩
  · simp
  · constructor
    · intro h
      exact ⟨a, between, rfl, h⟩
    · rintro ⟨a', between', heq, h⟩
      cases heq
      exact h

theorem outcome_lift_ok {x : Except Fault α} {a : α} {output final : JsonOutput} :
    (lift x).outcome output = (.ok a, final) ↔ x = .ok a ∧ final = output := by
  cases x with
  | error fault =>
      constructor
      · intro h
        cases h
      · rintro ⟨h, -⟩
        cases h
  | ok b =>
      constructor
      · intro h
        cases h
        exact ⟨rfl, rfl⟩
      · rintro ⟨h, rfl⟩
        cases h
        rfl

/-- The next value that is put into the output, if the writing ends well. -/
def Emits (w : Writing Unit) (P : Json → Prop) : Prop :=
  ∀ output final, w.outcome output = (.ok (), final) →
    ∃ j, P j ∧ (JsonOutput.emit j).outcome output = (.ok (), final)

theorem Emits.mono {w : Writing Unit} {P Q : Json → Prop} (h : w.Emits P) (hPQ : ∀ j, P j → Q j) :
    w.Emits Q := by
  intro output final hrun
  obtain ⟨j, hj, hemit⟩ := h output final hrun
  exact ⟨j, hPQ j hj, hemit⟩

theorem emits_emit (j : Json) : (JsonOutput.emit j).Emits fun i => i = j := by
  intro output final hrun
  exact ⟨j, rfl, hrun⟩

theorem emits_throw (fault : Fault) (P : Json → Prop) : (throw fault : Writing Unit).Emits P := by
  intro output final hrun
  cases hrun

theorem emits_lift_bind {x : Except Fault α} {f : α → Writing Unit} {P : Json → Prop}
    (h : ∀ a, x = .ok a → (f a).Emits P) : (lift x >>= f).Emits P := by
  intro output final hrun
  obtain ⟨a, between, hlift, hf⟩ := outcome_bind_ok.1 hrun
  obtain ⟨ha, rfl⟩ := outcome_lift_ok.1 hlift
  exact h a ha _ final hf

/-! ## Leaves -/

theorem emits_writeLeaf (v : Value) : (JsonOutput.writeLeaf v).Emits fun _ => True := by
  have hemit : ∀ j, (JsonOutput.emit j).Emits fun _ => True := fun j =>
    (emits_emit j).mono fun _ _ => trivial
  have hdouble : ∀ x, (JsonOutput.writeDouble x).Emits fun _ => True := by
    intro x
    unfold JsonOutput.writeDouble
    split
    · exact hemit _
    · exact emits_throw _ _
  unfold JsonOutput.writeLeaf
  split
  · exact hemit _
  · exact hemit _
  · exact hemit _
  · exact hdouble _
  · exact hdouble _
  · split
    · exact hemit _
    · exact emits_throw _ _

theorem emits_valueLeaf (v : Value) (type : ValueType) :
    (v.writeLeaf type).Emits fun _ => True := by
  have htext : ∀ t, (JsonOutput.writeText t).Emits fun _ => True := fun t =>
    (emits_emit _).mono fun _ _ => trivial
  unfold Value.writeLeaf
  split
  · exact emits_lift_bind fun v _ => emits_writeLeaf v
  · exact emits_lift_bind fun t _ => htext t
  · split
    · split
      · exact htext _
      · exact emits_throw _ _
    · exact emits_throw _ _
  · exact emits_throw _ _

/-! ## Structures -/

theorem emit_array {j : Json} {items : List Json} {rest : List OpenOutput} {result : Option Json}
    {final : JsonOutput}
    (h : (JsonOutput.emit j).outcome ⟨.array items :: rest, result⟩ = (.ok (), final)) :
    final = ⟨.array (items ++ [j]) :: rest, result⟩ := by
  cases h
  rfl

theorem emit_object {j : Json} {members : NameMap Json} {name : String} {rest : List OpenOutput}
    {result : Option Json} {final : JsonOutput}
    (h : (JsonOutput.emit j).outcome ⟨.object members (some name) :: rest, result⟩ =
      (.ok (), final)) :
    final = ⟨.object (members.insert name j) none :: rest, result⟩ := by
  cases h
  rfl

theorem setName_object {members : NameMap Json} {pending : Option String} {name : String}
    {rest : List OpenOutput} {result : Option Json} {final : JsonOutput}
    (h : (JsonOutput.setName name).outcome ⟨.object members pending :: rest, result⟩ =
      (.ok (), final)) :
    final = ⟨.object members (some name) :: rest, result⟩ := by
  cases h
  rfl

/-- A named value goes into the innermost open object. -/
theorem named_object {w : Writing Unit} {P : Json → Prop} (hw : w.Emits P)
    {members : NameMap Json} {pending : Option String} {name : String} {rest : List OpenOutput}
    {result : Option Json} {final : JsonOutput}
    (h : (JsonOutput.setName name >>= fun _ => w).outcome
      ⟨.object members pending :: rest, result⟩ = (.ok (), final)) :
    ∃ j, P j ∧ final = ⟨.object (members.insert name j) none :: rest, result⟩ := by
  obtain ⟨_, between, hname, hrun⟩ := outcome_bind_ok.1 h
  rw [setName_object hname] at hrun
  obtain ⟨j, hj, hemit⟩ := hw _ _ hrun
  exact ⟨j, hj, emit_object hemit⟩

/-- A collection is emitted with what is written between its ends. -/
theorem emits_collection {w : Writing Unit} {P : List Json → Prop}
    (h : ∀ rest result final, w.outcome ⟨.array [] :: rest, result⟩ = (.ok (), final) →
      ∃ items, P items ∧ final = ⟨.array items :: rest, result⟩) :
    (do JsonOutput.beginCollection; w; JsonOutput.endCollection : Writing Unit).Emits fun j =>
      ∃ items, P items ∧ j = .array items := by
  intro output final hrun
  obtain ⟨_, opened, hbegin, hrun⟩ := outcome_bind_ok.1 hrun
  obtain ⟨_, written, hw, hend⟩ := outcome_bind_ok.1 hrun
  cases hbegin
  obtain ⟨items, hitems, rfl⟩ := h _ _ _ hw
  obtain ⟨top, popped, hpop, hemit⟩ := outcome_bind_ok.1 hend
  cases hpop
  exact ⟨.array items, ⟨items, hitems, rfl⟩, hemit⟩

/-- An object or a map is emitted with the members that are written between its ends. -/
theorem emits_members {opening : Option (String × String)} {w : Writing Unit}
    {P : NameMap Json → Prop}
    (h : ∀ rest result final, w.outcome
        ⟨.object (opening.map fun (name, tag) => (name, Json.string tag)).toList none :: rest,
          result⟩ = (.ok (), final) →
      ∃ members pending, P members ∧ final = ⟨.object members pending :: rest, result⟩) :
    (do JsonOutput.beginObject opening; w; JsonOutput.endObject : Writing Unit).Emits fun j =>
      ∃ members, P members ∧ j = .object members := by
  intro output final hrun
  obtain ⟨_, opened, hbegin, hrun⟩ := outcome_bind_ok.1 hrun
  obtain ⟨_, written, hw, hend⟩ := outcome_bind_ok.1 hrun
  cases hbegin
  obtain ⟨members, pending, hmembers, rfl⟩ := h _ _ _ hw
  obtain ⟨top, popped, hpop, hemit⟩ := outcome_bind_ok.1 hend
  cases hpop
  exact ⟨.object members, ⟨members, hmembers, rfl⟩, hemit⟩

/-- Items are written one behind the other. -/
theorem outcome_writeItems {s : Schema} {o : WriteOptions} {type : ValueType} {path : String}
    {P : Value → Json → Prop} {items : List Value}
    (h : ∀ item ∈ items, (item.writeAt s o type path).Emits (P item)) {before : List Json}
    {rest : List OpenOutput} {result : Option Json} {final : JsonOutput}
    (hrun : (Value.writeItems s o items type path).outcome ⟨.array before :: rest, result⟩ =
      (.ok (), final)) :
    ∃ written : List Json, final = ⟨.array (before ++ written) :: rest, result⟩ ∧
      ∀ (i : Nat) item, items[i]? = some item → ∃ j, written[i]? = some j ∧ P item j := by
  induction items generalizing before with
  | nil =>
      rw [Value.writeItems] at hrun
      cases hrun
      exact ⟨[], by simp, by simp⟩
  | cons item others ih =>
      rw [Value.writeItems] at hrun
      obtain ⟨_, between, hitem, hothers⟩ := outcome_bind_ok.1 hrun
      obtain ⟨j, hj, hemit⟩ := h item (by simp) _ _ hitem
      rw [emit_array hemit] at hothers
      obtain ⟨written, hfinal, hwritten⟩ := ih (fun item hmem => h item (by simp [hmem])) hothers
      refine ⟨j :: written, by simpa using hfinal, ?_⟩
      intro i other hi
      cases i with
      | zero =>
          obtain rfl : item = other := by simpa using hi
          exact ⟨j, rfl, hj⟩
      | succ i => exact hwritten i other (by simpa using hi)

/-- Entries are written one after the other, so the last one with a key text stays. -/
theorem outcome_writeEntries {s : Schema} {o : WriteOptions} {keyType type : ValueType}
    {path : String} {P : Value → Json → Prop} {entries : List (Value × Value)}
    (h : ∀ entry ∈ entries, (entry.2.writeAt s o type path).Emits (P entry.2))
    {members : NameMap Json} {pending : Option String} {rest : List OpenOutput}
    {result : Option Json} {final : JsonOutput}
    (hrun : (Value.writeEntries s o entries keyType type path).outcome
      ⟨.object members pending :: rest, result⟩ = (.ok (), final)) :
    ∃ written pending', final = ⟨.object written pending' :: rest, result⟩ ∧
      (∀ text, (∀ entry ∈ entries, Value.keyText keyType entry.1 ≠ .ok text) →
        written.find? text = members.find? text) ∧
      ∀ before key item after text, entries = before ++ (key, item) :: after →
        Value.keyText keyType key = .ok text →
        (∀ entry ∈ after, Value.keyText keyType entry.1 ≠ .ok text) →
        ∃ j, written.find? text = some j ∧ P item j := by
  induction entries generalizing members pending with
  | nil =>
      rw [Value.writeEntries] at hrun
      cases hrun
      refine ⟨members, pending, rfl, fun _ _ => rfl, ?_⟩
      intro before key item after text heq
      simp at heq
  | cons entry others ih =>
      obtain ⟨key, item⟩ := entry
      rw [Value.writeEntries] at hrun
      obtain ⟨text, between, hlift, hrun⟩ := outcome_bind_ok.1 hrun
      obtain ⟨htext, rfl⟩ := outcome_lift_ok.1 hlift
      obtain ⟨_, named, hname, hrun⟩ := outcome_bind_ok.1 hrun
      obtain ⟨_, between, hitem, hothers⟩ := outcome_bind_ok.1 hrun
      obtain ⟨j, hj, hfinal⟩ := named_object (h (key, item) (by simp))
        (outcome_bind_ok.2 ⟨_, named, hname, hitem⟩)
      rw [hfinal] at hothers
      obtain ⟨written, pending', hfinal, hkept, hwritten⟩ :=
        ih (fun entry hmem => h entry (by simp [hmem])) hothers
      refine ⟨written, pending', hfinal, ?_, ?_⟩
      · intro other hother
        have hne : text ≠ other := by
          rintro rfl
          exact hother (key, item) (by simp) htext
        rw [hkept other fun entry hmem => hother entry (by simp [hmem]),
          NameMap.find?_insert_ne _ _ hne]
      · intro before otherKey otherItem after otherText heq hother hafter
        cases before with
        | nil =>
            simp only [List.nil_append, List.cons.injEq, Prod.mk.injEq] at heq
            obtain ⟨⟨rfl, rfl⟩, rfl⟩ := heq
            obtain rfl : text = otherText := Except.ok.inj (htext.symm.trans hother)
            exact ⟨j, by rw [hkept text hafter, NameMap.find?_insert_self], hj⟩
        | cons first before =>
            simp only [List.cons_append, List.cons.injEq] at heq
            exact hwritten before otherKey otherItem after otherText heq.2 hother hafter

/-- A property is written if it is admitted and the object has it, maybe not as a null, and passed
over else. -/
theorem outcome_writeProperty {o : WriteOptions} {path : String} {p : Property}
    {values : NameMap WritableProperty} {Q : Json → Prop}
    (h : ∀ value, values.find? p.name = some value →
      (value.write p.type (WriteOptions.propertyPath path p.name)).Emits Q)
    {members : NameMap Json} {pending : Option String} {rest : List OpenOutput}
    {result : Option Json} {final : JsonOutput}
    (hrun : (Value.writeProperty o path values p).outcome
      ⟨.object members pending :: rest, result⟩ = (.ok (), final)) :
    if o.admits (WriteOptions.propertyPath path p.name) p ∧
        (values.find? p.name).any fun value => !(value.isNull && o.skipNulls) then
      ∃ j, Q j ∧ final = ⟨.object (members.insert p.name j) none :: rest, result⟩
    else final = ⟨.object members pending :: rest, result⟩ := by
  unfold Value.writeProperty at hrun
  simp only at hrun
  by_cases hadmits : o.admits (WriteOptions.propertyPath path p.name) p = true
  · rw [if_pos hadmits] at hrun
    cases hvalue : values.find? p.name with
    | none =>
        rw [hvalue] at hrun
        rw [if_neg (by simp)]
        cases hrun
        rfl
    | some value =>
        rw [hvalue] at hrun
        simp only at hrun
        simp only [hadmits, Option.any_some, true_and, Bool.not_eq_true']
        by_cases hskipped : (value.isNull && o.skipNulls) = true
        · rw [if_pos hskipped] at hrun
          rw [if_neg (by simp [hskipped])]
          cases hrun
          rfl
        · rw [if_neg hskipped] at hrun
          rw [if_pos (by simpa using hskipped)]
          exact named_object (h value hvalue) hrun
  · rw [if_neg hadmits] at hrun
    rw [if_neg (by simp [hadmits])]
    cases hrun
    rfl

/-- Properties are written one after the other, those that are admitted and that the object has. -/
theorem outcome_writeProperties {o : WriteOptions} {path : String}
    {values : NameMap WritableProperty} {Q : Property → Json → Prop} {properties : List Property}
    (hnulls : o.skipNulls = false) (hnodup : (properties.map Property.name).Nodup)
    (h : ∀ p ∈ properties, ∀ value, values.find? p.name = some value →
      (value.write p.type (WriteOptions.propertyPath path p.name)).Emits (Q p))
    {members : NameMap Json} {pending : Option String} {rest : List OpenOutput}
    {result : Option Json} {final : JsonOutput}
    (hrun : (properties.forM (Value.writeProperty o path values)).outcome
      ⟨.object members pending :: rest, result⟩ = (.ok (), final)) :
    ∃ written pending', final = ⟨.object written pending' :: rest, result⟩ ∧
      (∀ name, (∀ p ∈ properties, p.name ≠ name) → written.find? name = members.find? name) ∧
      ∀ p ∈ properties,
        if o.admits (WriteOptions.propertyPath path p.name) p ∧ (values.find? p.name).isSome then
          ∃ j, written.find? p.name = some j ∧ Q p j
        else written.find? p.name = members.find? p.name := by
  induction properties generalizing members pending with
  | nil =>
      cases hrun
      exact ⟨members, pending, rfl, fun _ _ => rfl, by simp⟩
  | cons p others ih =>
      change (Value.writeProperty o path values p >>= fun _ =>
        others.forM (Value.writeProperty o path values)).outcome _ = _ at hrun
      obtain ⟨_, between, hproperty, hothers⟩ := outcome_bind_ok.1 hrun
      have hfirst := outcome_writeProperty (h p (by simp)) hproperty
      simp only [hnulls, Bool.and_false, Bool.not_false, Option.any_true] at hfirst
      rw [List.map_cons, List.nodup_cons] at hnodup
      have hne : ∀ q ∈ others, q.name ≠ p.name := by
        intro q hq heq
        exact hnodup.1 (heq ▸ List.mem_map_of_mem hq)
      by_cases hwritten : o.admits (WriteOptions.propertyPath path p.name) p ∧
          (values.find? p.name).isSome
      · rw [if_pos hwritten] at hfirst
        obtain ⟨j, hj, rfl⟩ := hfirst
        obtain ⟨written, pending', hfinal, hkept, hothers'⟩ :=
          ih hnodup.2 (fun q hq => h q (by simp [hq])) hothers
        refine ⟨written, pending', hfinal, ?_, ?_⟩
        · intro name hname
          rw [hkept name fun q hq => hname q (by simp [hq]),
            NameMap.find?_insert_ne _ _ (hname p (by simp))]
        · intro q hq
          rcases List.mem_cons.1 hq with rfl | hq
          · rw [if_pos hwritten]
            exact ⟨j, by rw [hkept q.name hne, NameMap.find?_insert_self], hj⟩
          · have hrest := hothers' q hq
            rw [NameMap.find?_insert_ne _ _ (Ne.symm (hne q hq))] at hrest
            exact hrest
      · rw [if_neg hwritten] at hfirst
        rw [hfirst] at hothers
        obtain ⟨written, pending', hfinal, hkept, hothers'⟩ :=
          ih hnodup.2 (fun q hq => h q (by simp [hq])) hothers
        refine ⟨written, pending', hfinal, ?_, ?_⟩
        · intro name hname
          exact hkept name fun q hq => hname q (by simp [hq])
        · intro q hq
          rcases List.mem_cons.1 hq with rfl | hq
          · rw [if_neg hwritten]
            exact hkept q.name hne
          · exact hothers' q hq

end Writing

end ResourceQuery
