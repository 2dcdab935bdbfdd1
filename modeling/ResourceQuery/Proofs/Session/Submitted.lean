import ResourceQuery.Proofs.NameMap
import ResourceQuery.Proofs.Schema.Naming
import ResourceQuery.Proofs.Session.Identities
import ResourceQuery.Proofs.ValueType.Text
/-!
# What reading lets in

Whatever a document says, the objects that are read of it hold only properties that can be set and
that the principal may submit, and the document names no others but those that cannot be set
(`ofDocument_submitted`). A cache of identities keeps to this: objects under one key belong to one
container, as the names on the way to an object and the name of its container can be told from the
key, and so what one of them takes over from another is a property of its own.
-/

namespace ResourceQuery

/-! ## What may be submitted -/

/-- The value has no parts: a scalar, a member of an enum or a reference to what such a value
identifies. -/
def Value.isLeaf : Value → Bool
  | .object _ _ | .list _ | .set _ | .map _ => false
  | .reference _ id => id.isLeaf
  | _ => true

/-- The document has no parts. -/
def Json.isLeaf : Json → Bool
  | .object _ | .array _ => false
  | _ => true

/-- The property can be set, and the principal may submit it. -/
structure Property.Submittable (p : Property) (principal : Option Principal) : Prop where
  settable : p.settable = true
  permitted : p.access.permits .submit principal = true

/-- Objects of the declared type may belong to the container: it is the declared one or one of its
variants. -/
def Schema.Describes (s : Schema) (declaredName : String) (c : Container) : Prop :=
  s.container? c.name = some c ∧ ∃ declared, s.container? declaredName = some declared ∧
    (c = declared ∨ c.name ∈ declared.variants)

namespace ValueType

section

variable (s : Schema) (principal : Option Principal)

/-- Every object in the value belongs to a container of its type, and everything it holds is a
property of that container that the principal may submit. -/
inductive Submitted : ValueType → Value → Prop
  | leaf {type : ValueType} {v : Value} (h : v.isLeaf = true) : Submitted type v
  | list {inner : ValueType} {items : List Value} (hitems : ∀ item ∈ items, Submitted inner item) :
      Submitted (.list inner) (.list items)
  | set {inner : ValueType} {items : List Value} (hitems : ∀ item ∈ items, Submitted inner item) :
      Submitted (.set inner) (.set items)
  | map {key inner : ValueType} {entries : List (Value × Value)}
      (hkeys : ∀ entry ∈ entries, entry.1.isLeaf = true)
      (hvalues : ∀ entry ∈ entries, Submitted inner entry.2) :
      Submitted (.map key inner) (.map entries)
  | object {declaredName : String} {c : Container} {properties : List (String × Value)}
      (hc : s.Describes declaredName c)
      (hproperties : ∀ entry ∈ properties,
        ∃ p, c.property? entry.1 = some p ∧ p.Submittable principal)
      (hvalues : ∀ entry ∈ properties, ∀ p, c.property? entry.1 = some p →
        Submitted p.type entry.2) :
      Submitted (.object declaredName) (.object c.name properties)

/-- Every object in the document names properties of the container that it tells, and each of them
cannot be set or is one that the principal may submit. Nothing is said of the member that tells the
container, nor of what stands under a property that cannot be set or under the dynamic type. -/
inductive Admits : ValueType → Json → Prop
  | leaf {type : ValueType} {j : Json} (h : j.isLeaf = true) : Admits type j
  | dynamic {j : Json} : Admits .dynamic j
  | list {inner : ValueType} {items : List Json} (hitems : ∀ item ∈ items, Admits inner item) :
      Admits (.list inner) (.array items)
  | set {inner : ValueType} {items : List Json} (hitems : ∀ item ∈ items, Admits inner item) :
      Admits (.set inner) (.array items)
  | map {key inner : ValueType} {members : List (String × Json)}
      (hvalues : ∀ member ∈ members, Admits inner member.2) :
      Admits (.map key inner) (.object members)
  | object {declaredName : String} {c : Container} {tag : Option String}
      {members : List (String × Json)} (hopened : s.openMembers declaredName members = .ok (c, tag))
      (hc : s.Describes declaredName c)
      (hmembers : ∀ member ∈ members, tag ≠ some member.1 →
        ∃ p, c.property? member.1 = some p ∧ (p.settable = false ∨ p.Submittable principal))
      (hvalues : ∀ member ∈ members, tag ≠ some member.1 → ∀ p,
        c.property? member.1 = some p → p.settable = true → Admits p.type member.2) :
      Admits (.object declaredName) (.object members)

end

end ValueType

open ValueType (Submitted Admits)

/-! ## Leaves -/

theorem ScalarKind.isLeaf_of_parse {kind : ScalarKind} {text : String} {v : Value}
    (h : kind.parse text = .ok v) : v.isLeaf = true := by
  cases kind with
  | string =>
      cases h
      rfl
  | whole width | float | double | decimal | boolean | date =>
      simp only [parse] at h
      split at h <;> cases h
      rfl

theorem ValueType.isLeaf_of_parseText {s : Schema} {type : ValueType} {text : String} {v : Value}
    (h : type.parseText s text = .ok v) : v.isLeaf = true := by
  replace h := readsAs_of_parseText h
  induction h with
  | scalar _ hread => exact ScalarKind.isLeaf_of_parse hread
  | enum => rfl
  | reference _ _ _ _ _ _ ih => exact ih

/-- A scalar is read of a document without parts. -/
theorem JsonInput.isLeaf_of_readScalar {kind : ScalarKind} {j : Json} {v : Value}
    (h : ((readScalar kind).run.run ⟨some j, [], none⟩).1 = .ok v) :
    v.isLeaf = true ∧ j.isLeaf = true := by
  constructor
  · have hmade : ∀ {α : Type} (read : Reading α) (f : α → Value),
        (do return f (← read) : Reading Value).result ⟨some j, [], none⟩ =
          (read.result ⟨some j, [], none⟩).map fun found => (f found.1, found.2) := by
      intro α read f
      rw [Reading.result_bind]
      cases read.result ⟨some j, [], none⟩ <;> rfl
    rw [Reading.fst_run] at h
    obtain ⟨⟨_, left⟩, hread, rfl⟩ := map_eq_ok_iff.1 h
    cases kind <;>
    · rw [readScalar, hmade] at hread
      obtain ⟨a, -, heq⟩ := map_eq_ok_iff.1 hread
      cases heq
      rfl
  · cases j with
    | object members => cases kind <;> cases h
    | array items => cases kind <;> cases h
    | _ => rfl

/-- A value that opens nothing under its type has no parts, and its document has none unless the
type is the dynamic one. -/
theorem ValueType.isLeaf_of_ofLeaf {s : Schema} {type : ValueType} {j : Json} {v : Value}
    (h : type.ofLeaf s j = .ok v) : v.isLeaf = true ∧ (j.isLeaf = true ∨ type = .dynamic) := by
  unfold ofLeaf at h
  split at h
  · obtain ⟨hv, hj⟩ := JsonInput.isLeaf_of_readScalar h
    exact ⟨hv, .inl hj⟩
  · split at h
    · exact ⟨isLeaf_of_parseText h, .inl rfl⟩
    · cases h
  · split at h
    · exact ⟨isLeaf_of_parseText h, .inl rfl⟩
    · cases h
  · obtain ⟨_, -, hfault⟩ := bind_eq_ok_iff.1 h
    cases hfault
  · cases h
  · cases h
  · cases h
  · cases h
    exact ⟨rfl, .inr rfl⟩

theorem ValueType.ofLeaf_submitted {s : Schema} {principal : Option Principal} {type : ValueType}
    {j : Json} {v : Value} (h : type.ofLeaf s j = .ok v) :
    Submitted s principal type v ∧ Admits s principal type j := by
  obtain ⟨hv, hj | rfl⟩ := isLeaf_of_ofLeaf h
  · exact ⟨.leaf hv, .leaf hj⟩
  · exact ⟨.leaf hv, .dynamic⟩

/-! ## Keys of identities -/

namespace Text

/-- A text is cut in one way behind its longest front of certain characters. -/
theorem cut_unique {p : Char → Bool} {front other rest more : List Char} {c d : Char}
    (hfront : ∀ x ∈ front, p x = true) (hother : ∀ x ∈ other, p x = true) (hc : p c = false)
    (hd : p d = false) (h : front ++ c :: rest = other ++ d :: more) :
    front = other ∧ c = d ∧ rest = more := by
  have hcut := congrArg (List.takeWhile p) h
  rw [List.takeWhile_append_of_pos hfront, List.takeWhile_append_of_pos hother,
    List.takeWhile_cons_of_neg (by simp [hc]), List.takeWhile_cons_of_neg (by simp [hd]),
    List.append_nil, List.append_nil] at hcut
  subst hcut
  simpa using h

end Text

namespace Context

/-- The separator of a key is no part of a label, and the one of a reference no part of a name. -/
theorem parts_of_path {labels others : List String} {name other id id' : String}
    (hlabels : ∀ label ∈ labels, Text.isIdentifier label.toList = true)
    (hothers : ∀ label ∈ others, Text.isIdentifier label.toList = true)
    (hname : Text.isIdentifier name.toList = true) (hother : Text.isIdentifier other.toList = true)
    (h : (labels.flatMap fun label => label.toList ++ ['/']) ++ (name.toList ++ '#' :: id.toList) =
      (others.flatMap fun label => label.toList ++ ['/']) ++ (other.toList ++ '#' :: id'.toList)) :
    labels = others ∧ name = other ∧ id = id' := by
  have hparts : ∀ text : String, Text.isIdentifier text.toList = true →
      ∀ c ∈ text.toList, Text.isIdentifierPart c = true :=
    fun text htext => Text.isIdentifierPart_of_mem htext
  induction labels generalizing others with
  | nil =>
      cases others with
      | nil =>
          obtain ⟨heq, -, hid⟩ :=
            Text.cut_unique (hparts _ hname) (hparts _ hother) (by decide) (by decide) h
          exact ⟨rfl, String.toList_inj.1 heq, String.toList_inj.1 hid⟩
      | cons label others =>
          rw [List.flatMap_nil, List.nil_append, List.flatMap_cons, List.append_assoc,
            List.append_assoc] at h
          obtain ⟨-, hsign, -⟩ := Text.cut_unique (hparts _ hname)
            (hparts _ (hothers label (by simp))) (by decide) (by decide) h
          exact absurd hsign (by decide)
  | cons label labels ih =>
      rw [List.flatMap_cons, List.append_assoc, List.append_assoc] at h
      have hlabel := hparts _ (hlabels label (by simp))
      cases others with
      | nil =>
          obtain ⟨-, hsign, -⟩ := Text.cut_unique hlabel (hparts _ hother) (by decide) (by decide) h
          exact absurd hsign (by decide)
      | cons label' others =>
          rw [List.flatMap_cons, List.append_assoc, List.append_assoc] at h
          obtain ⟨heq, -, hrest⟩ := Text.cut_unique hlabel
            (hparts _ (hothers label' (by simp))) (by decide) (by decide) h
          obtain ⟨rfl, hends⟩ := ih (fun l hl => hlabels l (by simp [hl]))
            (fun l hl => hothers l (by simp [hl])) hrest
          exact ⟨by rw [String.toList_inj.1 heq], hends⟩

theorem toList_key (c : Context) (name : String) :
    (c.key name).toList = (c.labels.flatMap fun label => label.toList ++ ['/']) ++ name.toList := by
  obtain ⟨labels⟩ := c
  unfold key
  induction labels with
  | nil => rfl
  | cons label rest ih =>
      cases rest <;> simp_all [Text.join, separator]

/-- The key of an identity tells the way, the type and the text of the identifier. -/
theorem key_eq_iff {c d : Context} {type other id id' : String}
    (hc : ∀ label ∈ c.labels, Text.isIdentifier label.toList = true)
    (hd : ∀ label ∈ d.labels, Text.isIdentifier label.toList = true)
    (htype : Text.isIdentifier type.toList = true) (hother : Text.isIdentifier other.toList = true) :
    c.key (type ++ "#" ++ id) = d.key (other ++ "#" ++ id') ↔ c = d ∧ type = other ∧ id = id' := by
  constructor
  · intro h
    have hpath : ∀ type id : String, (type ++ "#" ++ id).toList =
        type.toList ++ '#' :: id.toList := by
      intro type id
      simp
    have hchars := congrArg String.toList h
    rw [toList_key, toList_key, hpath, hpath] at hchars
    obtain ⟨hlabels, hends⟩ := parts_of_path hc hd htype hother hchars
    exact ⟨congrArg Context.mk hlabels, hends⟩
  · rintro ⟨rfl, rfl, rfl⟩
    rfl

end Context

/-! ## Objects and their cache -/

section

variable {s : Schema} {principal : Option Principal}

/-- What an object of the container holds may be submitted. -/
def Container.Holds (s : Schema) (principal : Option Principal) (c : Container)
    (properties : List (String × Value)) : Prop :=
  ∀ entry ∈ properties, ∃ p, c.property? entry.1 = some p ∧ p.Submittable principal ∧
    Submitted s principal p.type entry.2

theorem Container.Holds.submitted {c : Container} {properties : List (String × Value)}
    (h : c.Holds s principal properties) {declaredName : String} (hc : s.Describes declaredName c) :
    Submitted s principal (.object declaredName) (.object c.name properties) := by
  refine .object hc (fun entry hentry => ?_) fun entry hentry p hp => ?_
  · obtain ⟨p, hp, hsubmittable, -⟩ := h entry hentry
    exact ⟨p, hp, hsubmittable⟩
  · obtain ⟨q, hq, -, hvalue⟩ := h entry hentry
    rw [hp] at hq
    cases hq
    exact hvalue

theorem Container.Holds.set {c : Container} {content : Instance}
    (h : c.Holds s principal content.properties) {name : String} {p : Property} {value : Value}
    (hp : c.property? name = some p) (hsubmittable : p.Submittable principal)
    (hvalue : Submitted s principal p.type value) :
    c.Holds s principal (content.set name value).properties := by
  rintro ⟨key, v⟩ hentry
  rcases NameMap.mem_insert hentry with heq | hentry
  · cases heq
    exact ⟨p, hp, hsubmittable, hvalue⟩
  · exact h _ hentry

/-- What an object that takes over from another one has was in one of them. -/
theorem Instance.mem_mergeMissing {earlier later : Instance} {entry : String × Value}
    (h : entry ∈ (earlier.mergeMissing later).properties) :
    entry ∈ earlier.properties ∨ entry ∈ later.properties := by
  unfold Instance.mergeMissing at h
  generalize earlier.properties = known, later.properties = others at h ⊢
  induction others generalizing known with
  | nil => exact .inl h
  | cons other rest ih =>
      rcases ih _ h with hknown | hrest
      · dsimp only at hknown
        split at hknown
        · exact .inl hknown
        · rcases NameMap.mem_insert hknown with heq | hknown
          · obtain rfl : entry = other := heq
            exact .inr List.mem_cons_self
          · exact .inl hknown
      · exact .inr (List.mem_cons_of_mem _ hrest)

/-- An object takes over properties of its own container. -/
theorem Container.Holds.mergeMissing {c : Container} {earlier later : Instance}
    (h : c.Holds s principal earlier.properties) (hlater : c.Holds s principal later.properties) :
    c.Holds s principal (earlier.mergeMissing later).properties := by
  intro entry hentry
  rcases Instance.mem_mergeMissing hentry with hentry | hentry
  · exact h entry hentry
  · exact hlater entry hentry

namespace IdentityCache

/-- The key is the one of an object of a container, and that is what stands under it. -/
def Keeps (s : Schema) (principal : Option Principal) (key : String) (value : Value) : Prop :=
  ∃ (context : Context) (c : Container) (id : Value) (properties : List (String × Value)),
    (∀ label ∈ context.labels, Text.isIdentifier label.toList = true) ∧
    s.container? c.name = some c ∧ key = context.key (ResourceRef.encode ⟨c.name, id⟩) ∧
    value = .object c.name properties ∧ c.Holds s principal properties

/-- The way to where reading stands is made of names, and what is kept may be submitted. -/
structure Sound (s : Schema) (principal : Option Principal) (cache : IdentityCache) : Prop where
  labels : ∀ label ∈ cache.context.labels, Text.isIdentifier label.toList = true
  entries : ∀ key value, cache.entries.find? key = some value → Keeps s principal key value

variable {cache : IdentityCache}

theorem Sound.empty : Sound s principal .empty :=
  ⟨by simp [IdentityCache.empty], by simp [IdentityCache.empty]⟩

theorem Sound.enter (h : cache.Sound s principal) {label : String}
    (hlabel : Text.isIdentifier label.toList = true) : (cache.enter label).Sound s principal where
  labels other hother := by
    rcases List.mem_append.1 hother with hother | hother
    · exact h.labels other hother
    · rwa [List.mem_singleton.1 hother]
  entries := h.entries

theorem Sound.exit (h : cache.Sound s principal) : cache.exit.Sound s principal where
  labels label hlabel := h.labels label (List.mem_of_mem_dropLast hlabel)
  entries := h.entries

theorem Sound.insert (h : cache.Sound s principal) {key : String} {value : Value} {hits : Nat}
    (hkeeps : Keeps s principal key value) :
    Sound s principal { cache with entries := cache.entries.insert key value, hits := hits } where
  labels := h.labels
  entries other v hfind := by
    rw [NameMap.find?_insert] at hfind
    split at hfind
    · rename_i heq
      cases hfind
      exact heq ▸ hkeeps
    · exact h.entries other v hfind

/-- The object that is handed out for an object belongs to the same container. -/
theorem Sound.intern (h : cache.Sound s principal) (hs : s.IsNamed) {c : Container} (id : Value)
    {properties : List (String × Value)} (hc : s.container? c.name = some c)
    (hholds : c.Holds s principal properties) :
    let answer := cache.intern (ResourceRef.encode ⟨c.name, id⟩) (.object c.name properties)
    (∃ kept, answer.1 = .object c.name kept ∧ c.Holds s principal kept) ∧
      answer.2.Sound s principal := by
  have hnamed : ∀ {d : Container}, s.container? d.name = some d →
      Text.isIdentifier d.name.toList = true := fun hd => (hs _ (List.mem_of_find?_eq_some hd)).name
  cases hfind : cache.entries.find? (cache.context.key (ResourceRef.encode ⟨c.name, id⟩)) with
  | none =>
      simp only [IdentityCache.intern, hfind]
      exact ⟨⟨properties, rfl, hholds⟩,
        h.insert ⟨cache.context, c, id, properties, h.labels, hc, rfl, rfl, hholds⟩⟩
  | some old =>
      simp only [IdentityCache.intern, hfind]
      obtain ⟨context, d, id', kept, hlabels, hd, hkey, rfl, hkept⟩ := h.entries _ _ hfind
      -- both keys tell the container
      have hname : c.name = d.name :=
        ((Context.key_eq_iff h.labels hlabels (hnamed hc) (hnamed hd)).1 hkey).2.1
      obtain rfl : c = d := by
        rw [hname, hd] at hc
        exact (Option.some.inj hc).symm
      have hmerged : c.Holds s principal
          (Instance.mergeMissing ⟨c.name, kept⟩ ⟨c.name, properties⟩).properties :=
        Container.Holds.mergeMissing hkept hholds
      exact ⟨⟨_, rfl, hmerged⟩,
        h.insert ⟨cache.context, c, id, _, h.labels, hc, rfl, rfl, hmerged⟩⟩

end IdentityCache

end

/-! ## Opening objects -/

theorem Schema.describes_of_openMembers {s : Schema} {declaredName : String} {c : Container}
    {tag : Option String} {members : List (String × Json)}
    (h : s.openMembers declaredName members = .ok (c, tag)) : s.Describes declaredName c := by
  have hfound : ∀ {name : String} {d : Container}, s.container? name = some d →
      s.container? d.name = some d := by
    intro name d hd
    have hname : d.name = name := by simpa using List.find?_some hd
    rwa [hname]
  unfold openMembers at h
  obtain ⟨declared, hdeclared, h⟩ := bind_eq_ok_iff.1 h
  have hmem := container_eq_ok_iff.1 hdeclared
  obtain ⟨variant, -, h⟩ := bind_eq_ok_iff.1 h
  cases variant with
  | none =>
      cases h
      exact ⟨hfound hmem, c, hmem, .inl rfl⟩
  | some typeName =>
      obtain ⟨d, hconcrete, h⟩ := bind_eq_ok_iff.1 h
      cases h
      unfold concrete at hconcrete
      split at hconcrete
      · cases hconcrete
        exact ⟨hfound hmem, c, hmem, .inl rfl⟩
      · split at hconcrete
        · rename_i hvariant
          split at hconcrete
          · rename_i found hfoundVariant
            cases hconcrete
            have hname : c.name = typeName := by simpa using List.find?_some hfoundVariant
            refine ⟨hfound hfoundVariant, declared, hmem, .inr ?_⟩
            rw [hname]
            simpa using hvariant
          · cases hconcrete
        · cases hconcrete

/-- The identity of an object is told by its container and an identifier. -/
theorem Instance.exists_encode_of_identity? {object : Instance} {c : Container} {key : String}
    (h : object.identity? c = some key) : ∃ id, key = ResourceRef.encode ⟨c.name, id⟩ := by
  simp only [identity?, Option.bind_eq_bind, Option.bind_eq_some_iff] at h
  obtain ⟨p, -, id, -, hkey⟩ := h
  split at hkey
  · cases hkey
  · exact ⟨id, (Option.some.inj hkey).symm⟩

/-- A member that is let in names a property that cannot be set, or one to submit. -/
theorem Schema.submittable_ok {principal : Option Principal} {c : Container} {name : String}
    {answer : Option Property} (h : submittable principal c name = .ok answer) :
    ∃ p, c.property? name = some p ∧ ((answer = none ∧ p.settable = false) ∨
      (answer = some p ∧ p.Submittable principal)) := by
  unfold submittable at h
  split at h
  · cases h
  · rename_i p hp
    refine ⟨p, hp, ?_⟩
    split at h
    · rename_i hsettable
      cases h
      exact .inl ⟨rfl, by simpa using hsettable⟩
    · rename_i hsettable
      split at h
      · rename_i hpermitted
        cases h
        exact .inr ⟨rfl, by simpa using hsettable, hpermitted⟩
      · cases h

/-- The names of the members, and what stands under those that can be set, are admitted. -/
def Container.AdmitsMembers (s : Schema) (principal : Option Principal) (c : Container)
    (tag : Option String) (members : List (String × Json)) : Prop :=
  ∀ member ∈ members, tag ≠ some member.1 → ∃ p, c.property? member.1 = some p ∧
    (p.settable = false ∨ (p.Submittable principal ∧ Admits s principal p.type member.2))

theorem Container.AdmitsMembers.admits {s : Schema} {principal : Option Principal} {c : Container}
    {tag : Option String} {members : List (String × Json)}
    (h : c.AdmitsMembers s principal tag members) {declaredName : String}
    (hopened : s.openMembers declaredName members = .ok (c, tag)) :
    Admits s principal (.object declaredName) (.object members) := by
  refine .object hopened (Schema.describes_of_openMembers hopened) ?_ ?_
  · intro member hmember htag
    obtain ⟨p, hp, hcase⟩ := h member hmember htag
    exact ⟨p, hp, hcase.imp id And.left⟩
  · intro member hmember htag p hp hsettable
    obtain ⟨q, hq, hcase⟩ := h member hmember htag
    rw [hp] at hq
    cases hq
    rcases hcase with hfixed | ⟨-, hvalue⟩
    · rw [hsettable] at hfixed
      cases hfixed
    · exact hvalue

theorem Value.mem_of_mem_distinct {kept items : List Value} {v : Value}
    (h : v ∈ distinct kept items) : v ∈ kept ∨ v ∈ items := by
  induction items generalizing kept with
  | nil => exact .inl h
  | cons item rest ih =>
      rw [distinct] at h
      split at h
      · exact (ih h).imp id (List.mem_cons_of_mem item)
      · rcases ih h with hkept | hrest
        · rcases List.mem_append.1 hkept with hkept | hitem
          · exact .inl hkept
          · exact .inr (List.mem_singleton.1 hitem ▸ List.mem_cons_self)
        · exact .inr (List.mem_cons_of_mem item hrest)

/-! ## Reading -/

namespace Identities

/-- A session has no cache, or a sound one. -/
def SoundFor (s : Schema) (principal : Option Principal) (known : Option IdentityCache) : Prop :=
  ∀ cache ∈ known, cache.Sound s principal

section

variable {s : Schema} {principal : Option Principal} {known : Option IdentityCache}

theorem SoundFor.enter (h : SoundFor s principal known) {name : String}
    (hname : Text.isIdentifier name.toList = true) :
    SoundFor s principal (cached.enter name known) := by
  rintro _ hcache
  obtain ⟨cache, hmem, rfl⟩ := Option.mem_map.1 hcache
  exact (h cache hmem).enter hname

theorem SoundFor.exit (h : SoundFor s principal known) :
    SoundFor s principal (cached.exit known) := by
  rintro _ hcache
  obtain ⟨cache, hmem, rfl⟩ := Option.mem_map.1 hcache
  exact (h cache hmem).exit

/-- What stands for an object that was read. -/
theorem SoundFor.interned (h : SoundFor s principal known) (hs : s.IsNamed) {c : Container}
    (hc : s.container? c.name = some c) {content : Instance} (hname : content.typeName = c.name)
    (hholds : c.Holds s principal content.properties) :
    (∃ kept, (cached.interned c content known).1 = .object c.name kept ∧
      c.Holds s principal kept) ∧ SoundFor s principal (cached.interned c content known).2 := by
  obtain ⟨typeName, properties⟩ := content
  obtain rfl : typeName = c.name := hname
  unfold Identities.interned
  cases hidentity : (⟨c.name, properties⟩ : Instance).identity? c with
  | none => exact ⟨⟨properties, rfl, hholds⟩, h⟩
  | some key =>
      obtain ⟨id, rfl⟩ := Instance.exists_encode_of_identity? hidentity
      cases known with
      | none => exact ⟨⟨properties, rfl, hholds⟩, h⟩
      | some cache =>
          obtain ⟨hkept, hsound⟩ := (h cache rfl).intern hs id hc hholds
          refine ⟨hkept, ?_⟩
          rintro _ ⟨⟩
          exact hsound

theorem orNull_submitted {j : Json} {type : ValueType} {read : Value × Option IdentityCache}
    (hknown : SoundFor s principal known) {tree : Except Fault (Value × Option IdentityCache)}
    (htree : tree = .ok read → Submitted s principal type read.1 ∧ Admits s principal type j ∧
      SoundFor s principal read.2) (h : j.orNull known tree = .ok read) :
    Submitted s principal type read.1 ∧ Admits s principal type j ∧
      SoundFor s principal read.2 := by
  unfold Json.orNull at h
  split at h
  · rename_i hnull
    cases h
    refine ⟨.leaf rfl, .leaf ?_, hknown⟩
    cases j <;> first | rfl | cases hnull
  · exact htree h

theorem readTree_leaf_submitted {j : Json} {type : ValueType}
    {read : Value × Option IdentityCache} (hknown : SoundFor s principal known)
    (h : (type.ofLeaf s j).map (fun v => (v, known)) = .ok read) :
    Submitted s principal type read.1 ∧ Admits s principal type j ∧
      SoundFor s principal read.2 := by
  obtain ⟨v, hv, rfl⟩ := map_eq_ok_iff.1 h
  obtain ⟨hsubmitted, hadmits⟩ := ValueType.ofLeaf_submitted hv
  exact ⟨hsubmitted, hadmits, hknown⟩

variable {d : SchemaDocument}

mutual

theorem readTree_submitted (hbuild : d.build = .ok s) : ∀ (j : Json) {type : ValueType}
    {known : Option IdentityCache} {read : Value × Option IdentityCache},
    SoundFor s principal known → cached.readTree s principal type j known = .ok read →
    Submitted s principal type read.1 ∧ Admits s principal type j ∧ SoundFor s principal read.2
  | .object members, type, known, read, hknown, h => by
    cases type with
    | object typeName =>
        rw [readTree] at h
        obtain ⟨⟨c, tag⟩, hopened, h⟩ := bind_eq_ok_iff.1 h
        obtain ⟨⟨content, between⟩, hmembers, h⟩ := bind_eq_ok_iff.1 h
        cases h
        have hdescribes := Schema.describes_of_openMembers hopened
        have hempty : c.Holds s principal (Instance.empty c.name).properties := by
          simp [Container.Holds, Instance.empty]
        obtain ⟨hname, hholds, hadmits, hsound⟩ :=
          readMembers_submitted hbuild members hdescribes.1 hempty hknown hmembers
        obtain ⟨⟨kept, hvalue, hkept⟩, hsound⟩ :=
          hsound.interned (SchemaDocument.build_isNamed hbuild) hdescribes.1 hname hholds
        refine ⟨?_, hadmits.admits hopened, hsound⟩
        rw [hvalue]
        exact hkept.submitted hdescribes
    | map key inner =>
        rw [readTree] at h
        obtain ⟨⟨entries, between⟩, hentries, h⟩ := bind_eq_ok_iff.1 h
        cases h
        obtain ⟨hsubmitted, hadmits, hsound⟩ := readEntries_submitted hbuild members hknown hentries
        exact ⟨.map (fun entry hentry => (hsubmitted entry hentry).1)
          fun entry hentry => (hsubmitted entry hentry).2, .map hadmits, hsound⟩
    | _ =>
        rw [ValueType.readTree_leaf rfl] at h
        exact readTree_leaf_submitted hknown h
  | .array items, type, known, read, hknown, h => by
    cases type with
    | list inner =>
        rw [readTree] at h
        obtain ⟨⟨values, between⟩, hvalues, h⟩ := bind_eq_ok_iff.1 h
        cases h
        obtain ⟨hsubmitted, hadmits, hsound⟩ := readItems_submitted hbuild items hknown hvalues
        exact ⟨.list hsubmitted, .list hadmits, hsound⟩
    | set inner =>
        rw [readTree] at h
        obtain ⟨⟨values, between⟩, hvalues, h⟩ := bind_eq_ok_iff.1 h
        cases h
        obtain ⟨hsubmitted, hadmits, hsound⟩ := readItems_submitted hbuild items hknown hvalues
        refine ⟨.set fun v hv => ?_, .set hadmits, hsound⟩
        rcases Value.mem_of_mem_distinct hv with hv | hv
        · cases hv
        · exact hsubmitted v hv
    | _ =>
        rw [ValueType.readTree_leaf rfl] at h
        exact readTree_leaf_submitted hknown h
  | .null, type, known, read, hknown, h | .bool _, type, known, read, hknown, h
  | .number _, type, known, read, hknown, h | .string _, type, known, read, hknown, h => by
    rw [ValueType.readTree_leaf (by cases type <;> rfl)] at h
    exact readTree_leaf_submitted hknown h

theorem readMembers_submitted (hbuild : d.build = .ok s) : ∀ (members : List (String × Json))
    {c : Container} {tag : Option String} {content : Instance} {known : Option IdentityCache}
    {read : Instance × Option IdentityCache}, s.container? c.name = some c →
    c.Holds s principal content.properties → SoundFor s principal known →
    cached.readMembers s principal c tag members content known = .ok read →
    read.1.typeName = content.typeName ∧ c.Holds s principal read.1.properties ∧
      c.AdmitsMembers s principal tag members ∧ SoundFor s principal read.2
  | [], c, tag, content, known, read, hc, hcontent, hknown, h => by
    cases h
    exact ⟨rfl, hcontent, by simp [Container.AdmitsMembers], hknown⟩
  | (name, j) :: rest, c, tag, content, known, read, hc, hcontent, hknown, h => by
    rw [readMembers] at h
    split at h
    · rename_i htag
      obtain ⟨hname, hholds, hadmits, hsound⟩ :=
        readMembers_submitted hbuild rest hc hcontent hknown h
      refine ⟨hname, hholds, fun member hmember hne => ?_, hsound⟩
      rcases List.mem_cons.1 hmember with rfl | hmember
      · exact absurd htag hne
      · exact hadmits member hmember hne
    · obtain ⟨answer, hanswer, h⟩ := bind_eq_ok_iff.1 h
      obtain ⟨p, hp, ⟨rfl, hfixed⟩ | ⟨rfl, hsubmittable⟩⟩ := Schema.submittable_ok hanswer
      · obtain ⟨hname, hholds, hadmits, hsound⟩ :=
          readMembers_submitted hbuild rest hc hcontent hknown h
        refine ⟨hname, hholds, fun member hmember hne => ?_, hsound⟩
        rcases List.mem_cons.1 hmember with rfl | hmember
        · exact ⟨p, hp, .inl hfixed⟩
        · exact hadmits member hmember hne
      · obtain ⟨⟨value, between⟩, hvalue, h⟩ := bind_eq_ok_iff.1 h
        have hlabel : Text.isIdentifier name.toList = true := by
          have hname : p.name = name := by simpa using List.find?_some hp
          exact hname ▸ SchemaDocument.build_named hbuild c (List.mem_of_find?_eq_some hc) p
            (List.mem_of_find?_eq_some hp)
        have hentered := hknown.enter hlabel
        obtain ⟨hsubmitted, hadmitted, hsound⟩ :=
          orNull_submitted hentered (readTree_submitted hbuild j hentered) hvalue
        obtain ⟨hname, hholds, hadmits, hsound⟩ :=
          readMembers_submitted hbuild rest hc (hcontent.set hp hsubmittable hsubmitted)
            hsound.exit h
        refine ⟨hname, hholds, fun member hmember hne => ?_, hsound⟩
        rcases List.mem_cons.1 hmember with rfl | hmember
        · exact ⟨p, hp, .inr ⟨hsubmittable, hadmitted⟩⟩
        · exact hadmits member hmember hne

theorem readItems_submitted (hbuild : d.build = .ok s) : ∀ (items : List Json) {type : ValueType}
    {known : Option IdentityCache} {read : List Value × Option IdentityCache},
    SoundFor s principal known → cached.readItems s principal type items known = .ok read →
    (∀ item ∈ read.1, Submitted s principal type item) ∧
      (∀ item ∈ items, Admits s principal type item) ∧ SoundFor s principal read.2
  | [], type, known, read, hknown, h => by
    cases h
    exact ⟨by simp, by simp, hknown⟩
  | j :: rest, type, known, read, hknown, h => by
    rw [readItems] at h
    obtain ⟨⟨value, between⟩, hvalue, h⟩ := bind_eq_ok_iff.1 h
    obtain ⟨⟨values, last⟩, hvalues, h⟩ := bind_eq_ok_iff.1 h
    cases h
    obtain ⟨hsubmitted, hadmitted, hsound⟩ :=
      orNull_submitted hknown (readTree_submitted hbuild j hknown) hvalue
    obtain ⟨hothers, hadmits, hsound⟩ := readItems_submitted hbuild rest hsound hvalues
    exact ⟨List.forall_mem_cons.2 ⟨hsubmitted, hothers⟩,
      List.forall_mem_cons.2 ⟨hadmitted, hadmits⟩, hsound⟩

theorem readEntries_submitted (hbuild : d.build = .ok s) : ∀ (members : List (String × Json))
    {key type : ValueType} {known : Option IdentityCache}
    {read : List (Value × Value) × Option IdentityCache}, SoundFor s principal known →
    cached.readEntries s principal key type members known = .ok read →
    (∀ entry ∈ read.1, entry.1.isLeaf = true ∧ Submitted s principal type entry.2) ∧
      (∀ member ∈ members, Admits s principal type member.2) ∧ SoundFor s principal read.2
  | [], key, type, known, read, hknown, h => by
    cases h
    exact ⟨by simp, by simp, hknown⟩
  | (text, j) :: rest, key, type, known, read, hknown, h => by
    rw [readEntries] at h
    obtain ⟨k, hk, h⟩ := bind_eq_ok_iff.1 h
    obtain ⟨⟨value, between⟩, hvalue, h⟩ := bind_eq_ok_iff.1 h
    obtain ⟨⟨entries, last⟩, hentries, h⟩ := bind_eq_ok_iff.1 h
    cases h
    obtain ⟨hsubmitted, hadmitted, hsound⟩ :=
      orNull_submitted hknown (readTree_submitted hbuild j hknown) hvalue
    obtain ⟨hothers, hadmits, hsound⟩ := readEntries_submitted hbuild rest hsound hentries
    exact ⟨List.forall_mem_cons.2 ⟨⟨ValueType.isLeaf_of_parseText hk, hsubmitted⟩, hothers⟩,
      List.forall_mem_cons.2 ⟨hadmitted, hadmits⟩, hsound⟩

end

end

end Identities

/-- What is read under a schema holds only what the principal may submit, and the document names no
property besides but those that cannot be set, with a cache of identities or without one. -/
theorem ValueType.ofDocument_submitted {d : SchemaDocument} {s : Schema} (hbuild : d.build = .ok s)
    {type : ValueType} {principal : Option Principal} {caching : Bool} {document : Json} {v : Value}
    (h : type.ofDocument s principal caching document = .ok v) :
    Submitted s principal type v ∧ Admits s principal type document.canonical := by
  rw [ofDocument_eq] at h
  obtain ⟨read, hread, rfl⟩ := map_eq_ok_iff.1 h
  have hnone : Identities.SoundFor s principal (if caching then some .empty else none) := by
    intro cache hcache
    cases caching with
    | false => cases hcache
    | true =>
        cases hcache
        exact .empty
  obtain ⟨hsubmitted, hadmits, -⟩ := Identities.readTree_submitted hbuild _ hnone hread
  exact ⟨hsubmitted, hadmits⟩

/-- Two documents of one person are read, and the cache hands out one object for both. -/
theorem ValueType.ofDocument_submitted_merged :
    personDocument.build = .ok personSchema ∧
    (list (.object "User")).ofDocument personSchema none true
        (.array [personJson none, personJson (some "Ann")]) =
      .ok (.list [.ofInstance (person none), .ofInstance (person (some "Ann"))]) ∧
    Submitted personSchema none (list (.object "User"))
      (.list [.ofInstance (person none), .ofInstance (person (some "Ann"))]) ∧
    Admits personSchema none (list (.object "User"))
      (Json.array [personJson none, personJson (some "Ann")]).canonical :=
  have hread : (list (.object "User")).ofDocument personSchema none true
      (.array [personJson none, personJson (some "Ann")]) =
    .ok (.list [.ofInstance (person none), .ofInstance (person (some "Ann"))]) := rfl
  ⟨rfl, hread, ofDocument_submitted (d := personDocument) rfl hread⟩

end ResourceQuery
