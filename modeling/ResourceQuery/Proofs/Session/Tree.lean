import Mathlib.Tactic.Choose
import ResourceQuery.Proofs.Outcome
import ResourceQuery.Session.Read
/-!
# Reading along a document

Reading pulls values off a stack of what is open, with a bound on its steps. Here it is told along
the tree of the document, with what is kept of identities as a parameter; `read_run` says that both
are the same.
-/

namespace ResourceQuery

/-- What is kept of the objects that were read, and what is made of one more. -/
structure Identities (σ : Type) where
  enter : String → σ → σ
  exit : σ → σ
  intern : String → Instance → σ → Value × σ

namespace Identities

variable {σ : Type}

/-- The cache of a session, if it has one. -/
def cached : Identities (Option IdentityCache) where
  enter name := Option.map fun cache => cache.enter name
  exit := Option.map IdentityCache.exit
  intern key object
    | some cache => (cache.intern key (.ofInstance object)).map id some
    | none => (.ofInstance object, none)

/-- The object itself, or what is kept under its identity. -/
def interned (I : Identities σ) (c : Container) (object : Instance) (known : σ) : Value × σ :=
  match object.identity? c with
  | some key => I.intern key object known
  | none => (.ofInstance object, known)

end Identities

namespace Json

def isNull : Json → Bool
  | null => true
  | _ => false

def unexpected {α : Type} (expected : String) (found : Json) : Except Fault α :=
  .error (Fault.of (.data (.unexpected expected found.compact)))

end Json

namespace ValueType

/-- What is read of a value that opens nothing under the type. -/
def ofLeaf (s : Schema) (type : ValueType) (j : Json) : Except Fault Value :=
  match type with
  | .scalar kind => ((JsonInput.readScalar kind).run.run ⟨some j, [], none⟩).1
  | .enum _ | .reference _ =>
    match j with
    | .string text => type.parseText s text
    | found => Json.unexpected "string" found
  | .object typeName => do
    let _ ← s.container typeName
    Json.unexpected "object" j
  | .list _ | .set _ => Json.unexpected "array" j
  | .map _ _ => Json.unexpected "object" j
  | .dynamic => .ok .null

end ValueType

/-- The text of the member that tells the variant of an object. -/
def Json.tag? (discriminator : Option String) (members : List (String × Json)) :
    Except Fault (Option String) :=
  match discriminator with
  | none => .ok none
  | some name =>
    match NameMap.find? name members with
    | some (.string tag) => .ok (some tag)
    | some found => unexpected "type name" found
    | none => .ok none

/-- The container of an object with the members, and the name of the member that tells it. -/
def Schema.openMembers (s : Schema) (typeName : String) (members : List (String × Json)) :
    Except Fault (Container × Option String) := do
  let declared ← s.container typeName
  let discriminator := declared.discriminator?.map Property.name
  let c ← match ← Json.tag? discriminator members with
    | some tag => s.concrete declared tag
    | none => return (declared, discriminator)
  return (c, discriminator)

/-- A part of a structure, which may be a null. -/
def Json.orNull {σ : Type} (j : Json) (known : σ) (read : Except Fault (Value × σ)) :
    Except Fault (Value × σ) :=
  if j.isNull then .ok (.null, known) else read

namespace Identities

variable {σ : Type} (I : Identities σ) (s : Schema) (principal : Option Principal)

mutual

/-- Read a value that is not null. -/
def readTree (type : ValueType) (j : Json) (known : σ) : Except Fault (Value × σ) :=
  match j with
  | .object members =>
    match type with
    | .object typeName => do
      let (c, tag) ← s.openMembers typeName members
      let (content, known) ← readMembers c tag members (.empty c.name) known
      return I.interned c content known
    | .map key inner => do
      let (entries, known) ← readEntries key inner members known
      return (.map entries, known)
    | _ => do return (← type.ofLeaf s (.object members), known)
  | .array items =>
    match type with
    | .list inner => do
      let (values, known) ← readItems inner items known
      return (.list values, known)
    | .set inner => do
      let (values, known) ← readItems inner items known
      return (.set (Value.distinct [] values), known)
    | _ => do return (← type.ofLeaf s (.array items), known)
  | leaf => do return (← type.ofLeaf s leaf, known)

/-- Read the properties of an object, all members but the one that tells the container. -/
def readMembers (c : Container) (tag : Option String) (members : List (String × Json))
    (content : Instance) (known : σ) : Except Fault (Instance × σ) :=
  match members with
  | [] => .ok (content, known)
  | (name, j) :: rest =>
    if tag = some name then readMembers c tag rest content known
    else do
      match ← Schema.submittable principal c name with
      | none => readMembers c tag rest content known
      | some p =>
        let (value, known) ← j.orNull (I.enter name known) (readTree p.type j (I.enter name known))
        readMembers c tag rest (content.set name value) (I.exit known)

/-- Read the elements of a collection. -/
def readItems (type : ValueType) (items : List Json) (known : σ) :
    Except Fault (List Value × σ) :=
  match items with
  | [] => .ok ([], known)
  | j :: rest => do
    let (value, known) ← j.orNull known (readTree type j known)
    let (values, known) ← readItems type rest known
    return (value :: values, known)

/-- Read the entries of a map. -/
def readEntries (keyType type : ValueType) (members : List (String × Json)) (known : σ) :
    Except Fault (List (Value × Value) × σ) :=
  match members with
  | [] => .ok ([], known)
  | (text, j) :: rest => do
    let key ← keyType.parseText s text
    let (value, known) ← j.orNull known (readTree type j known)
    let (entries, known) ← readEntries keyType type rest known
    return ((key, value) :: entries, known)

end

end Identities

/-! ## Outcomes -/

namespace Reading

variable {α β : Type}

/-- The outcome of reading, with what is left if it ended well. -/
def result (r : Reading α) (input : JsonInput) : Except Fault (α × JsonInput) :=
  match r.run.run input with
  | (.ok a, left) => .ok (a, left)
  | (.error fault, _) => .error fault

theorem fst_run (r : Reading α) (input : JsonInput) :
    (r.run.run input).1 = (r.result input).map Prod.fst := by
  unfold result
  split
  · rename_i heq
    rw [heq]
    rfl
  · rename_i heq
    rw [heq]
    rfl

theorem result_eq_ok_iff {r : Reading α} {input left : JsonInput} {a : α} :
    r.result input = .ok (a, left) ↔ r.run.run input = (.ok a, left) := by
  unfold result
  rcases r.run.run input with ⟨fault | b, behind⟩
  · constructor
    · intro h
      cases h
    · intro h
      cases h
  · constructor
    · intro h
      cases h
      rfl
    · intro h
      cases h
      rfl

theorem result_bind (r : Reading α) (f : α → Reading β) (input : JsonInput) :
    (r >>= f).result input = r.result input >>= fun (a, left) => (f a).result left := by
  unfold result
  rw [ExceptT.run_bind, StateT.run_bind]
  rcases (ExceptT.run r).run input with ⟨_ | a, left⟩ <;> rfl

@[simp] theorem result_pure (a : α) (input : JsonInput) :
    (pure a : Reading α).result input = .ok (a, input) := rfl

@[simp] theorem result_throw (fault : Fault) (input : JsonInput) :
    (throw fault : Reading α).result input = .error fault := rfl

@[simp] theorem result_lift (x : Except Fault α) (input : JsonInput) :
    (lift x).result input = x.map fun a => (a, input) := by
  cases x <;> rfl

theorem result_take (expected : String) (j : Json) (stack : List OpenInput)
    (known : Option IdentityCache) :
    (JsonInput.take expected).result ⟨some j, stack, known⟩ = .ok (j, ⟨none, stack, known⟩) := rfl

/-- Reading takes the value that waits, and nothing else matters. -/
def TakesOne (r : Reading α) : Prop :=
  ∃ f : Json → Except Fault α, ∀ j stack known, r.result ⟨some j, stack, known⟩ =
    (f j).map fun a => (a, ⟨none, stack, known⟩)

theorem takesOne_take (expected : String) : (JsonInput.take expected).TakesOne :=
  ⟨Except.ok, result_take expected⟩

/-- What is made of the value does not matter. -/
theorem TakesOne.bind {r : Reading α} {f : α → Reading β} (h : r.TakesOne)
    (hf : ∀ a, ∃ x, f a = lift x) : (r >>= f).TakesOne := by
  obtain ⟨g, hg⟩ := h
  choose k hk using hf
  refine ⟨fun j => g j >>= k, fun j stack known => ?_⟩
  rw [result_bind, hg]
  cases hj : g j with
  | error fault => simp [hj, Except.map, error_bind]
  | ok a => simp [hj, Except.map, ok_bind, hk]

theorem takesOne_readText : JsonInput.readText.TakesOne := by
  refine (takesOne_take _).bind fun j => ?_
  cases j with
  | string text => exact ⟨.ok text, rfl⟩
  | _ => exact ⟨Json.unexpected _ _, rfl⟩

theorem takesOne_readDouble : JsonInput.readDouble.TakesOne := by
  refine (takesOne_take _).bind fun j => ?_
  cases j with
  | number n =>
      cases n with
      | integer n => exact ⟨.ok _, rfl⟩
      | single x => exact ⟨.ok _, rfl⟩
      | double x => exact ⟨.ok _, rfl⟩
  | _ => exact ⟨Json.unexpected _ _, rfl⟩

theorem takesOne_readWhole (width : Width) : (JsonInput.readWhole width).TakesOne := by
  refine (takesOne_take _).bind fun j => ?_
  cases j with
  | number n =>
      cases n with
      | integer n =>
          cases hn : Whole.ofInt? .long n with
          | none => exact ⟨.error _, by simp only [hn]; rfl⟩
          | some m => exact ⟨ScalarKind.fit width m.value, by simp only [hn]⟩
      | _ => exact ⟨Json.unexpected _ _, rfl⟩
  | _ => exact ⟨Json.unexpected _ _, rfl⟩

theorem takesOne_readScalar (kind : ScalarKind) : (JsonInput.readScalar kind).TakesOne := by
  have hvalue : ∀ {α : Type} (f : α → Value) (a : α), ∃ x, (pure (f a) : Reading Value) = lift x :=
    fun f a => ⟨.ok (f a), rfl⟩
  cases kind with
  | string => exact takesOne_readText.bind (hvalue _)
  | whole width => exact (takesOne_readWhole width).bind (hvalue _)
  | float => exact takesOne_readDouble.bind (hvalue _)
  | double => exact takesOne_readDouble.bind (hvalue _)
  | boolean =>
      refine TakesOne.bind ((takesOne_take _).bind fun j => ?_) (hvalue _)
      cases j with
      | bool b => exact ⟨.ok b, rfl⟩
      | _ => exact ⟨Json.unexpected _ _, rfl⟩
  | decimal =>
      refine TakesOne.bind (takesOne_readText.bind fun text => ?_) (hvalue _)
      cases hread : Decimal.read? text with
      | none => exact ⟨.error _, by simp only; rfl⟩
      | some d => exact ⟨.ok d, by simp only; rfl⟩
  | date =>
      refine TakesOne.bind (takesOne_readText.bind fun text => ?_) (hvalue _)
      cases hread : Instant.readTimestamp? text with
      | none => exact ⟨.error _, by simp only; rfl⟩
      | some t => exact ⟨.ok t, by simp only; rfl⟩

/-- Reading a scalar takes one value, whatever else is open. -/
theorem result_readScalar (kind : ScalarKind) (j : Json) (stack : List OpenInput)
    (known : Option IdentityCache) :
    (JsonInput.readScalar kind).result ⟨some j, stack, known⟩ =
      ((JsonInput.readScalar kind).run.run ⟨some j, [], none⟩).1.map fun v =>
        (v, ⟨none, stack, known⟩) := by
  obtain ⟨f, hf⟩ := takesOne_readScalar kind
  have halone := hf j [] none
  unfold result at halone
  rw [hf]
  congr 1
  split at halone
  · rename_i v left hrun
    obtain ⟨v', hv', heq⟩ := map_eq_ok_iff.1 halone.symm
    cases heq
    rw [hrun, hv']
  · rename_i fault left hrun
    rw [hrun]
    cases hj : f j with
    | error other =>
        rw [hj] at halone
        cases halone
        rfl
    | ok v =>
        rw [hj] at halone
        cases halone

theorem result_orNull (read : Reading Value) (j : Json) (stack : List OpenInput)
    (known : Option IdentityCache) :
    (orNull read).result ⟨some j, stack, known⟩ =
      if j.isNull then .ok (.null, ⟨none, stack, known⟩)
      else read.result ⟨some j, stack, known⟩ := by
  cases j <;> rfl

end Reading

/-! ## Both ways of reading -/

namespace ValueType

/-- A structure under its type, whose parts are read one by one. -/
def opens : ValueType → Json → Bool
  | .object _, .object _ | .map _ _, .object _ | .list _, .array _ | .set _, .array _ => true
  | _, _ => false

theorem readWithin_leaf {s : Schema} {principal : Option Principal} {type : ValueType} {j : Json}
    (h : type.opens j = false) (steps : Nat) (stack : List OpenInput)
    (known : Option IdentityCache) :
    (readWithin s principal (steps + 1) type).result ⟨some j, stack, known⟩ =
      (type.ofLeaf s j).map fun v => (v, ⟨none, stack, known⟩) := by
  cases type with
  | scalar kind => exact Reading.result_readScalar kind j stack known
  | enum members =>
      cases j with
      | string text => exact Reading.result_lift _ _
      | _ => rfl
  | reference target =>
      cases j with
      | string text => exact Reading.result_lift _ _
      | _ => rfl
  | object typeName =>
      rw [readWithin, Reading.result_bind, Schema.openObject, Reading.result_bind,
        Reading.result_lift, ofLeaf]
      cases s.container typeName with
      | error fault => rfl
      | ok declared =>
          cases j with
          | object members => cases h
          | _ => rfl
  | list inner =>
      cases j with
      | array items => cases h
      | _ => rfl
  | set inner =>
      cases j with
      | array items => cases h
      | _ => rfl
  | map key inner =>
      cases j with
      | object members => cases h
      | _ => rfl
  | dynamic => rfl

theorem readTree_leaf {σ : Type} {I : Identities σ} {s : Schema} {principal : Option Principal}
    {type : ValueType} {j : Json} (h : type.opens j = false) (known : σ) :
    I.readTree s principal type j known = (type.ofLeaf s j).map fun v => (v, known) := by
  have hplain : (do return (← type.ofLeaf s j, known) : Except Fault (Value × σ)) =
      (type.ofLeaf s j).map fun v => (v, known) := by
    cases type.ofLeaf s j <;> rfl
  rw [← hplain]
  cases j with
  | object members => cases type <;> first | (simp [opens] at h; done) | rfl
  | array items => cases type <;> first | (simp [opens] at h; done) | rfl
  | _ => rfl

end ValueType

/-! ### Steps of a structure that is open -/

namespace Reading

variable (stack : List OpenInput) (known : Option IdentityCache)

theorem result_enter (f : IdentityCache → IdentityCache) (next : Option Json) :
    (JsonInput.withIdentities f).result ⟨next, stack, known⟩ =
      .ok ((), ⟨next, stack, known.map f⟩) := rfl

/-- Objects are interned the same way. -/
theorem result_interned (c : Container) (object : Instance) :
    (interned c object).result ⟨none, stack, known⟩ =
      let (v, known) := Identities.cached.interned c object known
      .ok (v, ⟨none, stack, known⟩) := by
  unfold interned Identities.interned
  rw [result_bind]
  cases hkey : object.identity? c with
  | none => rfl
  | some key => cases known <;> rfl

theorem result_beginObject (discriminator : Option String) (members : List (String × Json)) :
    (JsonInput.beginObject discriminator).result ⟨some (.object members), stack, known⟩ =
      (Json.tag? discriminator members).map fun tag =>
        (tag, ⟨none,
          .object (members.filter fun member => discriminator ≠ some member.1) :: stack, known⟩) := by
  cases discriminator with
  | none =>
      have hall : (members.filter fun member => (none : Option String) ≠ some member.1) = members :=
        List.filter_eq_self.2 (by simp)
      rw [hall]
      rfl
  | some name =>
      have hothers : (members.filter fun member => some name ≠ some member.1) =
          members.filter fun member => member.1 ≠ name :=
        List.filter_congr fun member _ => by simp [eq_comm]
      unfold JsonInput.beginObject Json.tag?
      simp only [result_bind, result_take, ok_bind, result_pure, hothers]
      cases NameMap.find? name members with
      | none => rfl
      | some found => cases found <;> rfl

/-- Opening an object leaves its members but the one that tells its container. -/
theorem result_openObject (s : Schema) (typeName : String) (members : List (String × Json)) :
    (s.openObject typeName).result ⟨some (.object members), stack, known⟩ =
      (s.openMembers typeName members).map fun (c, tag) =>
        (c, ⟨none, .object (members.filter fun member => tag ≠ some member.1) :: stack, known⟩) := by
  unfold Schema.openObject Schema.openMembers
  rw [result_bind, result_lift]
  cases s.container typeName with
  | error fault => rfl
  | ok declared =>
      simp only [Except.map, ok_bind]
      rw [result_bind, result_beginObject]
      cases Json.tag? (declared.discriminator?.map Property.name) members with
      | error fault => rfl
      | ok tag =>
          cases tag with
          | none => rfl
          | some tag =>
              simp only [Except.map, ok_bind, result_lift]
              cases s.concrete declared tag <;> rfl

/-- A value that may be null, as part of a structure. -/
theorem result_orNull_tree {read : Reading Value} {j : Json} {known : Option IdentityCache}
    {tree : Except Fault (Value × Option IdentityCache)}
    (h : read.result ⟨some j, stack, known⟩ = tree.map fun (v, known) => (v, ⟨none, stack, known⟩)) :
    (orNull read).result ⟨some j, stack, known⟩ =
      (j.orNull known tree).map fun (v, known) => (v, ⟨none, stack, known⟩) := by
  rw [result_orNull, Json.orNull]
  split
  · rfl
  · exact h

end Reading

namespace ValueType

section Both

variable (s : Schema) (principal : Option Principal)

theorem readWithin_leaf_eq {type : ValueType} {j : Json} (h : type.opens j = false) (steps : Nat)
    (stack : List OpenInput) (known : Option IdentityCache) :
    (readWithin s principal (steps + 1) type).result ⟨some j, stack, known⟩ =
      (Identities.cached.readTree s principal type j known).map fun (v, known) =>
        (v, ⟨none, stack, known⟩) := by
  rw [readWithin_leaf h, readTree_leaf h]
  cases type.ofLeaf s j <;> rfl

mutual

theorem readWithin_eq : ∀ (j : Json) (steps : Nat) (type : ValueType) (stack : List OpenInput)
    (known : Option IdentityCache), j.weight < steps →
    (readWithin s principal steps type).result ⟨some j, stack, known⟩ =
      (Identities.cached.readTree s principal type j known).map fun (v, known) =>
        (v, ⟨none, stack, known⟩)
  | .object members, steps + 1, type, stack, known, h => by
    rw [Json.weight] at h
    have hend : ∀ known, JsonInput.endObject.result ⟨none, .object [] :: stack, known⟩ =
        .ok ((), ⟨none, stack, known⟩) := fun _ => rfl
    cases type with
    | object typeName =>
        rw [readWithin, Reading.result_bind, Reading.result_openObject, Identities.readTree]
        cases s.openMembers typeName members with
        | error fault => rfl
        | ok opened =>
            obtain ⟨c, tag⟩ := opened
            simp only [Except.map, ok_bind]
            rw [Reading.result_bind,
              readProperties_eq members steps c tag (.empty c.name) stack known (by omega)]
            cases Identities.cached.readMembers s principal c tag members (.empty c.name) known with
            | error fault => rfl
            | ok read =>
                obtain ⟨content, known⟩ := read
                simp only [Except.map, ok_bind]
                rw [Reading.result_bind, hend, ok_bind]
                exact Reading.result_interned stack known c content
    | map key inner =>
        have hbegin : JsonInput.beginMap.result ⟨some (.object members), stack, known⟩ =
            .ok ((), ⟨none, .object members :: stack, known⟩) := rfl
        rw [readWithin, Reading.result_bind, hbegin, Identities.readTree, ok_bind]
        simp only
        rw [Reading.result_bind, readEntries_eq members steps key inner stack known (by omega)]
        cases Identities.cached.readEntries s principal key inner members known with
        | error fault => rfl
        | ok read =>
            obtain ⟨entries, known⟩ := read
            simp only [Except.map, ok_bind]
            rw [Reading.result_bind, JsonInput.endMap, hend]
            rfl
    | _ => exact readWithin_leaf_eq s principal rfl steps stack known
  | .array items, steps + 1, type, stack, known, h => by
    rw [Json.weight] at h
    have hbegin : JsonInput.beginCollection.result ⟨some (.array items), stack, known⟩ =
        .ok ((), ⟨none, .array items :: stack, known⟩) := rfl
    have hend : ∀ known, JsonInput.endCollection.result ⟨none, .array [] :: stack, known⟩ =
        .ok ((), ⟨none, stack, known⟩) := fun _ => rfl
    cases type with
    | list inner | set inner =>
        rw [readWithin, Reading.result_bind, hbegin, Identities.readTree, ok_bind]
        simp only
        rw [Reading.result_bind, readItems_eq items steps inner stack known (by omega)]
        cases Identities.cached.readItems s principal inner items known with
        | error fault => rfl
        | ok read =>
            obtain ⟨values, known⟩ := read
            simp only [Except.map, ok_bind]
            rw [Reading.result_bind, hend]
            rfl
    | _ => exact readWithin_leaf_eq s principal rfl steps stack known
  | .null, steps + 1, type, stack, known, _ | .bool _, steps + 1, type, stack, known, _
  | .number _, steps + 1, type, stack, known, _ | .string _, steps + 1, type, stack, known, _ =>
    readWithin_leaf_eq s principal (by cases type <;> rfl) steps stack known

theorem readProperties_eq : ∀ (members : List (String × Json)) (steps : Nat) (c : Container)
    (tag : Option String) (content : Instance) (stack : List OpenInput)
    (known : Option IdentityCache), Json.weightMembers members < steps →
    (readProperties s principal steps c content).result
        ⟨none, .object (members.filter fun member => tag ≠ some member.1) :: stack, known⟩ =
      (Identities.cached.readMembers s principal c tag members content known).map
        fun (content, known) => (content, ⟨none, .object [] :: stack, known⟩)
  | [], steps + 1, c, tag, content, stack, known, _ => by
    rfl
  | (name, j) :: rest, steps + 1, c, tag, content, stack, known, h => by
    rw [Json.weightMembers] at h
    rw [Identities.readMembers]
    by_cases htag : tag = some name
    · rw [if_pos htag, List.filter_cons_of_neg (by simpa using htag)]
      exact readProperties_eq rest (steps + 1) c tag content stack known (by omega)
    · have hnext : ∀ others, JsonInput.nextName.result
            ⟨none, .object ((name, j) :: others) :: stack, known⟩ =
          .ok (some name, ⟨some j, .object others :: stack, known⟩) := fun _ => rfl
      rw [if_neg htag, List.filter_cons_of_pos (by simpa using htag), readProperties,
        Reading.result_bind, hnext, ok_bind]
      simp only
      rw [Reading.result_bind, Reading.result_lift]
      cases Schema.submittable principal c name with
      | error fault => rfl
      | ok found =>
          simp only [Except.map, ok_bind]
          cases found with
          | none =>
              have hskip : ∀ others, JsonInput.skip.result ⟨some j, .object others :: stack, known⟩ =
                  .ok ((), ⟨none, .object others :: stack, known⟩) := fun _ => rfl
              rw [Reading.result_bind, hskip, ok_bind]
              exact readProperties_eq rest steps c tag content stack known (by omega)
          | some p =>
              rw [Reading.result_bind, Reading.result_enter, ok_bind]
              simp only
              rw [Reading.result_bind, Reading.result_orNull_tree _
                (readWithin_eq j steps p.type _ (known.map fun k => k.enter name) (by omega))]
              have henter : Identities.cached.enter name known =
                  known.map fun k => k.enter name := rfl
              rw [henter]
              cases j.orNull (known.map fun k => k.enter name)
                  (Identities.cached.readTree s principal p.type j
                    (known.map fun k => k.enter name)) with
              | error fault => rfl
              | ok read =>
                  obtain ⟨value, known⟩ := read
                  simp only [Except.map, ok_bind]
                  rw [Reading.result_bind, Reading.result_enter, ok_bind]
                  exact readProperties_eq rest steps c tag (content.set name value) stack _
                    (by omega)

theorem readItems_eq : ∀ (items : List Json) (steps : Nat) (type : ValueType)
    (stack : List OpenInput) (known : Option IdentityCache), Json.weightItems items < steps →
    (readItems s principal steps type).result ⟨none, .array items :: stack, known⟩ =
      (Identities.cached.readItems s principal type items known).map
        fun (values, known) => (values, ⟨none, .array [] :: stack, known⟩)
  | [], steps + 1, type, stack, known, _ => by
    rfl
  | j :: rest, steps + 1, type, stack, known, h => by
    have hnext : JsonInput.nextElement.result ⟨none, .array (j :: rest) :: stack, known⟩ =
        .ok (true, ⟨some j, .array rest :: stack, known⟩) := rfl
    rw [Json.weightItems] at h
    rw [readItems, Reading.result_bind, hnext, Identities.readItems, ok_bind]
    simp only [if_true]
    rw [Reading.result_bind,
      Reading.result_orNull_tree _ (readWithin_eq j steps type _ known (by omega))]
    cases j.orNull known (Identities.cached.readTree s principal type j known) with
    | error fault => rfl
    | ok item =>
        obtain ⟨value, known⟩ := item
        simp only [Except.map, ok_bind]
        rw [Reading.result_bind, readItems_eq rest steps type stack known (by omega)]
        cases Identities.cached.readItems s principal type rest known <;> rfl

theorem readEntries_eq : ∀ (members : List (String × Json)) (steps : Nat)
    (keyType type : ValueType) (stack : List OpenInput) (known : Option IdentityCache),
    Json.weightMembers members < steps →
    (readEntries s principal steps keyType type).result ⟨none, .object members :: stack, known⟩ =
      (Identities.cached.readEntries s principal keyType type members known).map
        fun (entries, known) => (entries, ⟨none, .object [] :: stack, known⟩)
  | [], steps + 1, keyType, type, stack, known, _ => by
    rfl
  | (text, j) :: rest, steps + 1, keyType, type, stack, known, h => by
    have hnext : JsonInput.nextName.result ⟨none, .object ((text, j) :: rest) :: stack, known⟩ =
        .ok (some text, ⟨some j, .object rest :: stack, known⟩) := rfl
    rw [Json.weightMembers] at h
    rw [readEntries, Reading.result_bind, hnext, Identities.readEntries, ok_bind]
    simp only
    rw [Reading.result_bind, Reading.result_lift]
    cases keyType.parseText s text with
    | error fault => rfl
    | ok key =>
        simp only [Except.map, ok_bind]
        rw [Reading.result_bind,
          Reading.result_orNull_tree _ (readWithin_eq j steps type _ known (by omega))]
        cases j.orNull known (Identities.cached.readTree s principal type j known) with
        | error fault => rfl
        | ok item =>
            obtain ⟨value, known⟩ := item
            simp only [Except.map, ok_bind]
            rw [Reading.result_bind, readEntries_eq rest steps keyType type stack known (by omega)]
            cases Identities.cached.readEntries s principal keyType type rest known <;> rfl

end

/-- The steps that reading is given are enough, whatever else is open. -/
theorem read_eq (type : ValueType) (j : Json) (stack : List OpenInput)
    (known : Option IdentityCache) :
    (type.read s principal).result ⟨some j, stack, known⟩ =
      (Identities.cached.readTree s principal type j known).map fun (v, known) =>
        (v, ⟨none, stack, known⟩) := by
  have hread : ∀ input : JsonInput, (type.read s principal).result input =
      (readWithin s principal (2 * input.weight + 2) type).result input := by
    intro input
    rw [read, Reading.result_bind]
    rfl
  have hweight : j.weight ≤ (⟨some j, stack, known⟩ : JsonInput).weight := Nat.le_add_right _ _
  rw [hread, readWithin_eq s principal _ _ _ _ _ (by omega)]

end Both

/-- A value is read if the tree of the one that waits can be read; all else that is open stays. -/
theorem read_run {s : Schema} {principal : Option Principal} {type : ValueType} {j : Json}
    {stack : List OpenInput} {known : Option IdentityCache} {v : Value} {left : JsonInput} :
    (type.read s principal).run.run ⟨some j, stack, known⟩ = (.ok v, left) ↔
      ∃ kept, Identities.cached.readTree s principal type j known = .ok (v, kept) ∧
        left = ⟨none, stack, kept⟩ := by
  rw [← Reading.result_eq_ok_iff, read_eq]
  refine map_eq_ok_iff.trans ⟨?_, ?_⟩
  · rintro ⟨⟨value, kept⟩, htree, heq⟩
    cases heq
    exact ⟨kept, htree, rfl⟩
  · rintro ⟨kept, htree, rfl⟩
    exact ⟨(v, kept), htree, rfl⟩

/-- The value that a document is read as, with a cache of identities or without one. -/
def ofDocument (s : Schema) (principal : Option Principal) (caching : Bool) (type : ValueType)
    (document : Json) : Except Fault Value :=
  ((type.read s principal).run.run (JsonInput.ofJson document caching)).1

/-- Reading a document is reading along its tree. -/
theorem ofDocument_eq (s : Schema) (principal : Option Principal) (caching : Bool)
    (type : ValueType) (document : Json) :
    type.ofDocument s principal caching document =
      (Identities.cached.readTree s principal type document.canonical
        (if caching then some .empty else none)).map Prod.fst := by
  rw [ofDocument, Reading.fst_run, JsonInput.ofJson, read_eq]
  cases Identities.cached.readTree s principal type document.canonical
    (if caching then some .empty else none) <;> rfl

end ValueType

end ResourceQuery
