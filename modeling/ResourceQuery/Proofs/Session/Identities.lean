import ResourceQuery.Proofs.NameMap
import ResourceQuery.Proofs.Session.Tree
import ResourceQuery.Schema.Build
/-!
# What a cache of identities changes

Whether a document can be read does not depend on what is kept of identities, but what it is read as
does: an object takes over what an earlier one with its identity had. Where later objects have all
that earlier ones had, nothing changes (`ofDocument_caching`).
-/

namespace ResourceQuery

variable {σ τ α β : Type}

namespace Identities

/-! ## Two ways to keep identities -/

/-- Outcomes that fail alike. If what the second way keeps in the end is fine, it was fine before,
and both have the same result and keep what is related. -/
inductive Agree (P : τ → Prop) (R : σ → τ → Prop) (before : τ) :
    Except Fault (α × σ) → Except Fault (α × τ) → Prop
  | error (fault : Fault) : Agree P R before (.error fault) (.error fault)
  | ok {p : α × σ} {q : α × τ} (h : P q.2 → P before ∧ p.1 = q.1 ∧ R p.2 q.2) :
      Agree P R before (.ok p) (.ok q)

/-- Each step of the first way follows the one of the second, as long as what the second way keeps
is fine. -/
structure Simulates (P : τ → Prop) (R : σ → τ → Prop) (I : Identities σ) (J : Identities τ) :
    Prop where
  entered : ∀ {name b}, P (J.enter name b) → P b
  enter : ∀ {name a b}, R a b → R (I.enter name a) (J.enter name b)
  exited : ∀ {b}, P (J.exit b) → P b
  exit : ∀ {a b}, R a b → R (I.exit a) (J.exit b)
  recorded : ∀ {key object b}, P (J.intern key object b).2 → P b
  intern : ∀ {key object a b}, NameMap.Sorted object.properties → R a b →
    P (J.intern key object b).2 →
    (I.intern key object a).1 = (J.intern key object b).1 ∧
      R (I.intern key object a).2 (J.intern key object b).2

variable {P : τ → Prop} {R : σ → τ → Prop} {I : Identities σ} {J : Identities τ}

namespace Agree

theorem bind {before : τ} {x : Except Fault (α × σ)} {y : Except Fault (α × τ)}
    {f : α × σ → Except Fault (β × σ)} {g : α × τ → Except Fault (β × τ)}
    (h : Agree P R before x y)
    (hfg : ∀ p q, y = .ok q → (P q.2 → P before ∧ p.1 = q.1 ∧ R p.2 q.2) →
      Agree P R q.2 (f p) (g q)) :
    Agree P R before (x >>= f) (y >>= g) := by
  cases h with
  | error fault => exact .error fault
  | @ok p q h =>
      have hnext := hfg p q rfl h
      rw [ok_bind, ok_bind]
      generalize f p = x, g q = y at hnext ⊢
      cases hnext with
      | error fault => exact .error fault
      | ok hrest => exact .ok fun hP => ⟨(h (hrest hP).1).1, (hrest hP).2⟩

theorem from_earlier {earlier before : τ} (hP : P before → P earlier) {x : Except Fault (α × σ)}
    {y : Except Fault (α × τ)} (h : Agree P R before x y) : Agree P R earlier x y := by
  cases h with
  | error fault => exact .error fault
  | ok h => exact .ok fun hq => ⟨hP (h hq).1, (h hq).2⟩

/-- A result that does not depend on what is kept. -/
theorem map_leaf {a : σ} {b : τ} (hR : P b → R a b) (x : Except Fault α) :
    Agree P R b (x.map fun v => (v, a)) (x.map fun v => (v, b)) := by
  cases x with
  | error fault => exact .error fault
  | ok v => exact .ok fun hP => ⟨hP, rfl, hR hP⟩

theorem orNull {a : σ} {b : τ} (hR : P b → R a b) (j : Json) {x : Except Fault (Value × σ)}
    {y : Except Fault (Value × τ)} (h : Agree P R b x y) :
    Agree P R b (j.orNull a x) (j.orNull b y) := by
  unfold Json.orNull
  split
  · exact .ok fun hP => ⟨hP, rfl, hR hP⟩
  · exact h

/-- Both ways fail with the same fault, or none does. -/
theorem error_iff {before : τ} {x : Except Fault (α × σ)} {y : Except Fault (α × τ)}
    (h : Agree P R before x y) (fault : Fault) : x = .error fault ↔ y = .error fault := by
  cases h with
  | error other => simp
  | ok h => simp

end Agree

theorem Simulates.interned (hsim : Simulates P R I J) {c : Container} {v w : Instance} {a : σ}
    {b : τ} (hsorted : NameMap.Sorted w.properties) (h : P b → v = w ∧ R a b) :
    Agree P R b (.ok (I.interned c v a)) (.ok (J.interned c w b)) := by
  refine .ok fun hP => ?_
  unfold Identities.interned at hP
  have hb : P b := by
    split at hP
    · exact hsim.recorded hP
    · exact hP
  obtain ⟨rfl, hR⟩ := h hb
  unfold Identities.interned
  cases hkey : v.identity? c with
  | none => exact ⟨hb, rfl, hR⟩
  | some key =>
      rw [hkey] at hP
      exact ⟨hb, hsim.intern hsorted hR hP⟩

/-- Members are put under their names, in order. -/
theorem readMembers_sorted {s : Schema} {principal : Option Principal} {c : Container}
    {tag : Option String} {members : List (String × Json)} {content : Instance} {a : σ}
    {read : Instance × σ} (h : I.readMembers s principal c tag members content a = .ok read)
    (hcontent : NameMap.Sorted content.properties) : NameMap.Sorted read.1.properties := by
  induction members generalizing content a with
  | nil =>
      rw [readMembers] at h
      cases h
      exact hcontent
  | cons member rest ih =>
      obtain ⟨name, j⟩ := member
      rw [readMembers] at h
      split at h
      · exact ih h hcontent
      · rw [bind_eq_ok_iff] at h
        obtain ⟨found, -, h⟩ := h
        cases found with
        | none => exact ih h hcontent
        | some p =>
            simp only [bind_eq_ok_iff] at h
            obtain ⟨value, -, h⟩ := h
            exact ih h (NameMap.sorted_insert name value.1 hcontent)

section Reading

variable (s : Schema) (principal : Option Principal)

mutual

/-- Both ways of keeping identities agree on every value that is read. -/
theorem Simulates.readTree (hsim : Simulates P R I J) :
    ∀ (j : Json) (type : ValueType) {a : σ} {b : τ}, (P b → R a b) →
    Agree P R b (I.readTree s principal type j a) (J.readTree s principal type j b)
  | .object members, type, a, b, hR => by
    cases type with
    | object typeName =>
        rw [Identities.readTree, Identities.readTree]
        cases s.openMembers typeName members with
        | error fault => exact .error fault
        | ok opened =>
            obtain ⟨c, tag⟩ := opened
            rw [ok_bind, ok_bind]
            refine (hsim.readMembers members c tag fun hP => ⟨rfl, hR hP⟩).bind
              fun content kept hread h => ?_
            exact hsim.interned (readMembers_sorted hread List.Pairwise.nil) fun hP => (h hP).2
    | map key inner =>
        rw [Identities.readTree, Identities.readTree]
        refine (hsim.readEntries members key inner hR).bind fun entries kept _ h => .ok ?_
        exact fun hP => ⟨hP, congrArg Value.map (h hP).2.1, (h hP).2.2⟩
    | _ =>
        rw [ValueType.readTree_leaf rfl, ValueType.readTree_leaf rfl]
        exact .map_leaf hR _
  | .array items, type, a, b, hR => by
    cases type with
    | list inner =>
        rw [Identities.readTree, Identities.readTree]
        refine (hsim.readItems items inner hR).bind fun values kept _ h => .ok ?_
        exact fun hP => ⟨hP, congrArg Value.list (h hP).2.1, (h hP).2.2⟩
    | set inner =>
        rw [Identities.readTree, Identities.readTree]
        refine (hsim.readItems items inner hR).bind fun values kept _ h => .ok ?_
        exact fun hP => ⟨hP, congrArg (Value.set ∘ Value.distinct []) (h hP).2.1, (h hP).2.2⟩
    | _ =>
        rw [ValueType.readTree_leaf rfl, ValueType.readTree_leaf rfl]
        exact .map_leaf hR _
  | .null, type, a, b, hR | .bool _, type, a, b, hR | .number _, type, a, b, hR
  | .string _, type, a, b, hR => by
    rw [ValueType.readTree_leaf (by cases type <;> rfl),
      ValueType.readTree_leaf (by cases type <;> rfl)]
    exact .map_leaf hR _

theorem Simulates.readMembers (hsim : Simulates P R I J) :
    ∀ (members : List (String × Json)) (c : Container) (tag : Option String)
      {content other : Instance} {a : σ} {b : τ}, (P b → content = other ∧ R a b) →
    Agree P R b (I.readMembers s principal c tag members content a)
      (J.readMembers s principal c tag members other b)
  | [], c, tag, content, other, a, b, h => .ok fun hP => ⟨hP, h hP⟩
  | (name, j) :: rest, c, tag, content, other, a, b, h => by
    rw [Identities.readMembers, Identities.readMembers]
    split
    · exact hsim.readMembers rest c tag h
    · cases Schema.submittable principal c name with
      | error fault => exact .error fault
      | ok found =>
          rw [ok_bind, ok_bind]
          cases found with
          | none => exact hsim.readMembers rest c tag h
          | some p =>
              have hentered : P (J.enter name b) → R (I.enter name a) (J.enter name b) :=
                fun hP => hsim.enter (h (hsim.entered hP)).2
              have hvalue := Agree.orNull hentered j (hsim.readTree j p.type hentered)
              have hcontent : P (J.enter name b) → content = other :=
                fun hP => (h (hsim.entered hP)).1
              refine Agree.from_earlier hsim.entered (hvalue.bind fun value kept _ h => ?_)
              refine Agree.from_earlier hsim.exited (hsim.readMembers rest c tag fun hP => ?_)
              obtain ⟨hP, heq, hR⟩ := h (hsim.exited hP)
              exact ⟨by rw [hcontent hP, heq], hsim.exit hR⟩

theorem Simulates.readItems (hsim : Simulates P R I J) :
    ∀ (items : List Json) (type : ValueType) {a : σ} {b : τ}, (P b → R a b) →
    Agree P R b (I.readItems s principal type items a) (J.readItems s principal type items b)
  | [], type, a, b, hR => .ok fun hP => ⟨hP, rfl, hR hP⟩
  | j :: rest, type, a, b, hR => by
    rw [Identities.readItems, Identities.readItems]
    refine (Agree.orNull hR j (hsim.readTree j type hR)).bind fun value kept _ h => ?_
    refine (hsim.readItems rest type fun hP => (h hP).2.2).bind fun values kept _ h' =>
      .ok fun hP => ?_
    obtain ⟨hP', hvalues, hR'⟩ := h' hP
    exact ⟨hP, congrArg₂ List.cons (h hP').2.1 hvalues, hR'⟩

theorem Simulates.readEntries (hsim : Simulates P R I J) :
    ∀ (members : List (String × Json)) (keyType type : ValueType) {a : σ} {b : τ}, (P b → R a b) →
    Agree P R b (I.readEntries s principal keyType type members a)
      (J.readEntries s principal keyType type members b)
  | [], keyType, type, a, b, hR => .ok fun hP => ⟨hP, rfl, hR hP⟩
  | (text, j) :: rest, keyType, type, a, b, hR => by
    rw [Identities.readEntries, Identities.readEntries]
    cases keyType.parseText s text with
    | error fault => exact .error fault
    | ok key =>
        rw [ok_bind, ok_bind]
        refine (Agree.orNull hR j (hsim.readTree j type hR)).bind fun value kept _ h => ?_
        refine (hsim.readEntries rest keyType type fun hP => (h hP).2.2).bind
          fun entries kept _ h' => .ok fun hP => ?_
        obtain ⟨hP', hentries, hR'⟩ := h' hP
        exact ⟨hP, congrArg₂ (fun v rest => (key, v) :: rest) (h hP').2.1 hentries, hR'⟩

end

end Reading

end Identities

/-! ## A log of what is identified -/

/-- The objects with an identity, each under its key, in the order they were read. -/
structure IdentityLog where
  context : Context
  objects : List (String × Instance)

/-- An instance has all that an earlier one has. -/
structure Instance.Includes (later earlier : Instance) : Prop where
  typeName : later.typeName = earlier.typeName
  properties : ∀ name value, earlier.get? name = some value → later.get? name = some value

namespace IdentityLog

def empty : IdentityLog := ⟨⟨[]⟩, []⟩

/-- The last object under a key. -/
def last? (log : IdentityLog) (key : String) : Option Instance :=
  NameMap.find? key log.objects.reverse

/-- Objects with the same key only gain properties. -/
def Gains (log : IdentityLog) : Prop :=
  log.objects.Pairwise fun earlier later => earlier.1 = later.1 → later.2.Includes earlier.2

end IdentityLog

/-- Objects are written down and stay as they are. -/
def Identities.recording : Identities IdentityLog where
  enter name log := { log with context := ⟨log.context.labels ++ [name]⟩ }
  exit log := { log with context := ⟨log.context.labels.dropLast⟩ }
  intern name object log :=
    (.ofInstance object,
      { log with objects := log.objects ++ [(log.context.key name, object)] })

/-! ## The cache follows the log -/

namespace Instance

/-- What both have is what the earlier one has. -/
theorem find?_mergeMissing (name : String) (earlier later : Instance) :
    (earlier.mergeMissing later).get? name = (earlier.get? name).or (later.get? name) := by
  unfold mergeMissing get?
  generalize later.properties = others, earlier.properties = known
  simp only
  induction others generalizing known with
  | nil => simp
  | cons entry rest ih =>
      obtain ⟨key, value⟩ := entry
      rw [List.foldl_cons, ih, NameMap.find?]
      by_cases hkey : key = name
      · subst hkey
        cases hknown : NameMap.find? key known with
        | none => simp [NameMap.contains, hknown]
        | some old => simp [NameMap.contains, hknown]
      · rw [if_neg hkey]
        split
        · rfl
        · rw [NameMap.find?_insert_ne _ _ hkey]

theorem mergeMissing_sorted {earlier : Instance} (later : Instance)
    (h : NameMap.Sorted earlier.properties) :
    NameMap.Sorted (earlier.mergeMissing later).properties := by
  unfold mergeMissing
  generalize later.properties = others, earlier.properties = known at h ⊢
  simp only
  induction others generalizing known with
  | nil => exact h
  | cons entry rest ih =>
      rw [List.foldl_cons]
      split
      · exact ih _ h
      · exact ih _ (NameMap.sorted_insert _ _ h)

/-- An instance that has all the earlier one has is what both are merged to. -/
theorem Includes.mergeMissing_eq {earlier later : Instance} (h : later.Includes earlier)
    (hearlier : NameMap.Sorted earlier.properties) (hlater : NameMap.Sorted later.properties) :
    earlier.mergeMissing later = later := by
  have hproperties : (earlier.mergeMissing later).properties = later.properties := by
    refine (mergeMissing_sorted later hearlier).ext hlater fun name => ?_
    refine (find?_mergeMissing name earlier later).trans ?_
    cases hname : earlier.get? name with
    | none => rfl
    | some value => exact (h.properties name value hname).symm
  have htype : (earlier.mergeMissing later).typeName = later.typeName := h.typeName.symm
  calc
    earlier.mergeMissing later =
        ⟨(earlier.mergeMissing later).typeName, (earlier.mergeMissing later).properties⟩ := rfl
    _ = later := by rw [hproperties, htype]

end Instance

namespace IdentityLog

theorem last?_append (log : IdentityLog) (context : Context) (name key : String)
    (object : Instance) :
    (⟨context, log.objects ++ [(name, object)]⟩ : IdentityLog).last? key =
      if name = key then some object else log.last? key := by
  unfold last?
  rw [List.reverse_append]
  rfl

theorem mem_of_last? {log : IdentityLog} {key : String} {object : Instance}
    (h : log.last? key = some object) : (key, object) ∈ log.objects :=
  List.mem_reverse.1 (NameMap.mem_of_find? h)

theorem gains_append {log : IdentityLog} {context : Context} {name : String} {object : Instance}
    (h : (⟨context, log.objects ++ [(name, object)]⟩ : IdentityLog).Gains) :
    log.Gains ∧ ∀ earlier, log.last? name = some earlier → object.Includes earlier := by
  unfold Gains at h
  obtain ⟨hlog, -, hobject⟩ := List.pairwise_append.1 h
  refine ⟨hlog, fun earlier hearlier => ?_⟩
  exact hobject _ (mem_of_last? hearlier) (name, object) (by simp) rfl

/-- The cache stands where the log stands and keeps the last object under each key. -/
structure Kept (cache : IdentityCache) (log : IdentityLog) : Prop where
  context : cache.context = log.context
  entries : ∀ key, cache.entries.find? key = (log.last? key).map Value.ofInstance
  sorted : ∀ entry ∈ log.objects, NameMap.Sorted entry.2.properties

theorem Kept.empty : Kept .empty .empty :=
  ⟨rfl, fun _ => rfl, fun _ h => by cases h⟩

/-- What was merged with an object is that object. -/
theorem Kept.intern {cache : IdentityCache} {log : IdentityLog} (h : Kept cache log) {name : String}
    {object : Instance} (hobject : NameMap.Sorted object.properties)
    (hgains : (Identities.recording.intern name object log).2.Gains) :
    (cache.intern name (.ofInstance object)).1 = .ofInstance object ∧
      Kept (cache.intern name (.ofInstance object)).2
        (Identities.recording.intern name object log).2 := by
  have hincludes := (gains_append hgains).2
  have hentries : ∀ key, (cache.entries.insert (log.context.key name) (.ofInstance object)).find?
      key = ((Identities.recording.intern name object log).2.last? key).map Value.ofInstance := by
    intro key
    simp only [Identities.recording]
    rw [NameMap.find?_insert, last?_append, h.entries]
    split <;> rfl
  have hsorted : ∀ entry ∈ (Identities.recording.intern name object log).2.objects,
      NameMap.Sorted entry.2.properties := by
    intro entry hentry
    rcases List.mem_append.1 hentry with hentry | hentry
    · exact h.sorted entry hentry
    · obtain rfl := List.mem_singleton.1 hentry
      exact hobject
  unfold IdentityCache.intern
  simp only [h.context, h.entries]
  cases hlast : log.last? (log.context.key name) with
  | none => exact ⟨rfl, rfl, hentries, hsorted⟩
  | some earlier =>
      have hmerge : IdentityCache.merge (.ofInstance earlier) (.ofInstance object) =
          .ofInstance object :=
        congrArg Value.ofInstance ((hincludes earlier hlast).mergeMissing_eq
          (h.sorted _ (mem_of_last? hlast)) hobject)
      simp only [Option.map_some, hmerge, true_and]
      exact ⟨rfl, hentries, hsorted⟩

end IdentityLog

namespace Identities

open IdentityLog (Kept)

/-- A cache follows a log in which objects only gain properties. -/
theorem cached_simulates :
    Simulates IdentityLog.Gains (fun cache log => ∃ kept, cache = some kept ∧ Kept kept log)
      cached recording where
  entered h := h
  enter := by
    rintro name _ log ⟨kept, rfl, h⟩
    refine ⟨_, rfl, ?_, h.entries, h.sorted⟩
    exact congrArg (fun c : Context => Context.mk (c.labels ++ [name])) h.context
  exited h := h
  exit := by
    rintro _ log ⟨kept, rfl, h⟩
    refine ⟨_, rfl, ?_, h.entries, h.sorted⟩
    exact congrArg (fun c : Context => Context.mk c.labels.dropLast) h.context
  recorded h := (IdentityLog.gains_append h).1
  intern := by
    rintro key object _ log hobject ⟨kept, rfl, h⟩ hgains
    obtain ⟨hvalue, hkept⟩ := h.intern hobject hgains
    exact ⟨hvalue, _, rfl, hkept⟩

/-- Without a cache, objects stay as they are. -/
theorem uncached_simulates :
    Simulates (fun _ => True) (fun cache _ => cache = none) cached recording where
  entered _ := trivial
  enter h := by rw [h]; rfl
  exited _ := trivial
  exit h := by rw [h]; rfl
  recorded _ := trivial
  intern _ h _ := by
    rw [h]
    exact ⟨rfl, rfl⟩

end Identities

namespace ValueType

/-- The objects with an identity that a document holds, each under its key. -/
def identified (s : Schema) (principal : Option Principal) (type : ValueType) (document : Json) :
    List (String × Instance) :=
  match Identities.recording.readTree s principal type document.canonical .empty with
  | .ok (_, log) => log.objects
  | .error _ => []

/-- A cache of identities does not change whether a document can be read nor the fault if it cannot.
The value stays the same if an object has all that the earlier ones with its identity have. -/
theorem ofDocument_caching (s : Schema) (principal : Option Principal) (type : ValueType)
    (document : Json) :
    (∀ fault, type.ofDocument s principal true document = .error fault ↔
      type.ofDocument s principal false document = .error fault) ∧
    (((type.identified s principal document).Pairwise fun earlier later =>
        earlier.1 = later.1 → later.2.Includes earlier.2) →
      type.ofDocument s principal true document = type.ofDocument s principal false document) := by
  have hcached := Identities.cached_simulates.readTree s principal document.canonical type
    (a := some .empty) (b := .empty) fun _ => ⟨_, rfl, .empty⟩
  have hplain := Identities.uncached_simulates.readTree s principal document.canonical type
    (a := none) (b := .empty) fun _ => rfl
  rw [ofDocument_eq, ofDocument_eq, identified, if_pos rfl, if_neg (by decide)]
  generalize Identities.cached.readTree s principal type document.canonical (some .empty) = cached,
    Identities.cached.readTree s principal type document.canonical none = plain,
    Identities.recording.readTree s principal type document.canonical .empty = recorded
    at hcached hplain ⊢
  constructor
  · intro fault
    have herror : ∀ read : Except Fault (Value × Option IdentityCache),
        read.map Prod.fst = .error fault ↔ read = .error fault := by
      intro read
      cases read <;> simp [Except.map]
    rw [herror, herror, hcached.error_iff, hplain.error_iff]
  · intro hgains
    cases hcached with
    | error fault =>
        cases hplain
        rfl
    | ok hcached =>
        cases hplain with
        | ok hplain =>
            exact congrArg Except.ok ((hcached hgains).2.1.trans (hplain trivial).2.1.symm)

/-- People, who have an identifier. -/
def personDocument : SchemaDocument where
  resources :=
    [{ name := "User", persistent := false
       properties := [{ name := "id", kind := some .id, type := "long" },
        { name := "name", type := "string" }] }]
  objects := []

def personSchema : Schema :=
  let id : Property :=
    { name := "id", kind := .id, type := .scalar (.whole .long), settable := true }
  let name : Property :=
    { name := "name", kind := .simple, type := .string, settable := true }
  ⟨[⟨"User", .resource false, .plain, [id, name]⟩]⟩

/-- The document of the person with the identifier one. -/
def personJson (name : Option String) : Json :=
  .object (("id", .number (.integer 1)) :: name.toList.map fun name => ("name", .string name))

def person (name : Option String) : Instance :=
  ⟨"User", ("id", .whole .long ⟨1, by decide⟩) :: name.toList.map fun name => ("name", .text name)⟩

/-- A person is read again with a name. -/
theorem ofDocument_caching_named :
    (((list (.object "User")).identified personSchema none
        (.array [personJson none, personJson (some "Ann")])).Pairwise fun earlier later =>
      earlier.1 = later.1 → later.2.Includes earlier.2) ∧
    (list (.object "User")).ofDocument personSchema none true
        (.array [personJson none, personJson (some "Ann")]) =
      (list (.object "User")).ofDocument personSchema none false
        (.array [personJson none, personJson (some "Ann")]) := by
  have hidentified : (list (.object "User")).identified personSchema none
      (.array [personJson none, personJson (some "Ann")]) =
    [("User#1", person none), ("User#1", person (some "Ann"))] := rfl
  have hincludes : (person (some "Ann")).Includes (person none) := by
    refine ⟨rfl, fun name value h => ?_⟩
    by_cases hname : "id" = name
    · subst hname
      exact h
    · simp [person, Instance.get?, NameMap.find?, hname] at h
  have hgains : ((list (.object "User")).identified personSchema none
      (.array [personJson none, personJson (some "Ann")])).Pairwise fun earlier later =>
    earlier.1 = later.1 → later.2.Includes earlier.2 := by
    rw [hidentified]
    simpa using hincludes
  exact ⟨hgains, (ofDocument_caching personSchema none (list (.object "User")) _).2 hgains⟩

/-- The second person of a list takes over the name of the first, who has the same identifier. -/
theorem not_ofDocument_caching :
    personDocument.build = .ok personSchema ∧
      (list (.object "User")).ofDocument personSchema none true
          (.array [personJson (some "Ann"), personJson (some "Bob")]) =
        .ok (.list [.ofInstance (person (some "Ann")), .ofInstance (person (some "Ann"))]) ∧
      (list (.object "User")).ofDocument personSchema none false
          (.array [personJson (some "Ann"), personJson (some "Bob")]) =
        .ok (.list [.ofInstance (person (some "Ann")), .ofInstance (person (some "Bob"))]) ∧
      person (some "Ann") ≠ person (some "Bob") :=
  ⟨rfl, rfl, rfl, by simp [person]⟩

end ValueType

end ResourceQuery
