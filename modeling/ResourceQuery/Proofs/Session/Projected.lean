import ResourceQuery.Proofs.Projection.Rules
import ResourceQuery.Proofs.Schema.Coherence
import ResourceQuery.Proofs.Session.Emission
/-!
# Writing under a projection

A path denotes places in a value, through properties, through the elements of collections, and
through objects of one variant only. Whether a place is written is decided by the path as writing
spells it, without the variants that were selected (`writeAt_emits`). So a rule on a path that
selects no variant does what it says.
-/

namespace ResourceQuery

/-- One step into a document. -/
inductive AddressStep
  | member (name : String)
  | index (number : Nat)
  deriving DecidableEq, Repr

/-- A place in a document, from the outside. -/
abbrev Address := List AddressStep

/-- What stands at a place of a document. -/
def Json.at? : Json → Address → Option Json
  | document, [] => some document
  | .object members, .member name :: rest =>
    match NameMap.find? name members with
    | some inner => at? inner rest
    | none => none
  | .array items, .index i :: rest =>
    match items[i]? with
    | some inner => at? inner rest
    | none => none
  | _, _ :: _ => none

/-- The type of the elements of a list or a set. -/
def ValueType.element? : ValueType → Option ValueType
  | list inner | set inner => some inner
  | _ => none

theorem ValueType.eq_of_element? {type inner : ValueType} (h : type.element? = some inner) :
    type = .list inner ∨ type = .set inner := by
  cases type with
  | list other => exact .inl (congrArg ValueType.list (Option.some.inj h))
  | set other => exact .inr (congrArg ValueType.set (Option.some.inj h))
  | _ => cases h

/-- The elements of a list or a set. -/
def Value.elements? : Value → Option (List Value)
  | list items | set items => some items
  | _ => none

namespace Schema

/-- The container that an object is written with is the declared one or one of its variants. -/
theorem Coherent.concrete_cases {s : Schema} (hs : s.Coherent) {name typeName : String}
    {c d : Container} (hc : s.container? name = some c) (hd : s.concrete c typeName = .ok d) :
    d ∈ s.containers ∧ d.name = typeName ∧ c.properties <+: d.properties ∧
      (d = c ∨ d.base? = some c.name) := by
  have hcmem := List.mem_of_find?_eq_some hc
  unfold concrete at hd
  split at hd
  · rename_i heq
    cases hd
    exact ⟨hcmem, heq, List.prefix_rfl, .inl rfl⟩
  · split at hd
    · rename_i htag
      split at hd
      · rename_i v hv
        cases hd
        have hvmem := List.mem_of_find?_eq_some hv
        have hbase := hs.variant_base hcmem (by simpa using htag) hv
        exact ⟨hvmem, by simpa using List.find?_some hv,
          hs.inherits d.name d hvmem rfl c.name hbase c hcmem rfl, .inr hbase⟩
      · cases hd
    · cases hd

/-- The discriminator of a container is one of what it is written with, where no other property has
its name. -/
theorem Coherent.ne_discriminator {s : Schema} (hs : s.Coherent) {c d : Container}
    (hd : d ∈ s.containers) (hunder : c.properties <+: d.properties) {p : Property}
    (hp : p ∈ d.properties) (hdiscriminator : p.isDiscriminator = false) :
    c.discriminator?.map Property.name ≠ some p.name := by
  intro heq
  obtain ⟨q, hq, hname⟩ := Option.map_eq_some_iff.1 heq
  have hqmem := hunder.subset (List.mem_of_find?_eq_some hq)
  have hqis := List.find?_some hq
  rw [hs.property_unique hd hqmem hp hname, hdiscriminator] at hqis
  cases hqis

/-- The properties of a container are those of the same names in what it is written with. -/
theorem property?_of_inherited {c d : Container} {name : String} {p : Property}
    (h : c.properties <+: d.properties) (hp : c.property? name = some p) :
    d.property? name = some p := by
  obtain ⟨more, hmore⟩ := h
  rw [Container.property?, ← hmore, List.find?_append]
  rw [Container.property?] at hp
  rw [hp]
  rfl

/-- The container of the name of an object is the one that the object is written with. -/
theorem Coherent.concrete_eq {s : Schema} (hs : s.Coherent) {name tag : String}
    {c d v : Container} (hc : s.container? name = some c) (hd : s.concrete c tag = .ok d)
    (hv : s.container? tag = some v) : d = v := by
  have hvmem := List.mem_of_find?_eq_some hv
  obtain ⟨hdmem, hdname, -, -⟩ := hs.concrete_cases hc hd
  have hvname : v.name = tag := by simpa using List.find?_some hv
  exact container_unique hs.outlined hdmem hvmem (hdname.trans hvname.symm)

end Schema

namespace Value

/-- The places of a value that steps lead to. A place in a map is named by the text of its key; of
several entries with one text, the last one has the place. -/
inductive Denotes : List PathStep → ValueType → Value → Address → Prop
  | here (type : ValueType) (v : Value) : Denotes [] type v []
  | property {container name typeName : String} {p : Property} {rest : List PathStep}
    {properties : List (String × Value)} {v : Value} {address : Address}
    (hvalue : NameMap.find? p.name properties = some v) (hrest : Denotes rest p.type v address) :
    Denotes (.property container p :: rest) (.object name) (.object typeName properties)
      (.member p.name :: address)
  | variant {tag name : String} {rest : List PathStep} {properties : List (String × Value)}
    {address : Address} (hrest : Denotes rest (.object name) (.object tag properties) address) :
    Denotes (.variant tag :: rest) (.object name) (.object tag properties) address
  | element {step : PathStep} {rest : List PathStep} {type inner : ValueType} {v item : Value}
    {items : List Value} {number : Nat} {address : Address} (htype : type.element? = some inner)
    (hitems : v.elements? = some items) (hitem : items[number]? = some item)
    (hrest : Denotes (step :: rest) inner item address) :
    Denotes (step :: rest) type v (.index number :: address)
  | entry {step : PathStep} {rest : List PathStep} {keyType inner : ValueType}
    {before after : List (Value × Value)} {key item : Value} {text : String} {address : Address}
    (htext : keyText keyType key = .ok text)
    (hlast : ∀ entry ∈ after, keyText keyType entry.1 ≠ .ok text)
    (hrest : Denotes (step :: rest) inner item address) :
    Denotes (step :: rest) (.map keyType inner) (.map (before ++ (key, item) :: after))
      (.member text :: address)

/-- The options of a writer with a projection and nothing else. -/
def projecting (p : Projection) : WriteOptions := { projection := some p }

/-- The document of a value has something at the places that steps lead to if and only if all
properties on the way can be got and are written under their spelled paths. -/
def Shows (s : Schema) (projection : Projection) (v : Value) (type : ValueType) (path : String)
    (j : Json) : Prop :=
  ∀ c steps address, type.container?.bind s.container? = some c → Path.Follows s c steps →
    (∀ p ∈ steps.filterMap PathStep.property?, p.isDiscriminator = false) →
    Denotes steps type v address →
    ((j.at? address).isSome ↔
      ∀ q p, (q, p) ∈ Path.spelled path (steps.filterMap PathStep.property?) →
        p.gettable = true ∧ projection.isWritten q p.fetchedByDefault = true)

section

variable {s : Schema} {projection : Projection} {path : String} {j : Json}

/-- A value that has no elements, entries or properties has itself as its only place. -/
theorem shows_of_denotes_nil {v : Value} {type : ValueType}
    (h : ∀ step rest address, ¬Denotes (step :: rest) type v address) :
    Shows s projection v type path j := by
  intro c steps address _ _ _ hdenotes
  cases steps with
  | cons step rest => exact absurd hdenotes (h step rest address)
  | nil =>
      cases hdenotes
      simp [Json.at?, Path.spelled]

theorem shows_elements {v : Value} {type inner : ValueType} {items : List Value}
    {written : List Json} (hv : v.elements? = some items) (htype : type.element? = some inner)
    (h : ∀ (i : Nat) item, items[i]? = some item →
      ∃ j, written[i]? = some j ∧ Shows s projection item inner path j) :
    Shows s projection v type path (.array written) := by
  have hcontainer : type.container? = inner.container? := by
    cases type <;> simp_all [ValueType.element?, ValueType.container?, ValueType.leaf]
  intro c steps address hc hfollows hdiscriminator hdenotes
  cases hdenotes with
  | here => simp [Json.at?, Path.spelled]
  | property hvalue hrest => cases hv
  | variant hrest => cases hv
  | entry htext hlast hrest => cases hv
  | element htype' hitems hitem hrest =>
      obtain rfl := Option.some.inj (htype.symm.trans htype')
      obtain rfl := Option.some.inj (hv.symm.trans hitems)
      obtain ⟨j, hj, hshows⟩ := h _ _ hitem
      rw [Json.at?, hj]
      exact hshows c _ _ (hcontainer ▸ hc) hfollows hdiscriminator hrest

theorem shows_entries {keyType inner : ValueType} {entries : List (Value × Value)}
    {members : NameMap Json}
    (h : ∀ before key item after text, entries = before ++ (key, item) :: after →
      keyText keyType key = .ok text →
      (∀ entry ∈ after, keyText keyType entry.1 ≠ .ok text) →
      ∃ j, members.find? text = some j ∧ Shows s projection item inner path j) :
    Shows s projection (.map entries) (.map keyType inner) path (.object members) := by
  intro c steps address hc hfollows hdiscriminator hdenotes
  cases hdenotes with
  | here => simp [Json.at?, Path.spelled]
  | element htype hitems hitem hrest => cases htype
  | entry htext hlast hrest =>
      obtain ⟨j, hj, hshows⟩ := h _ _ _ _ _ rfl htext hlast
      rw [Json.at?, hj]
      exact hshows c _ _ hc hfollows hdiscriminator hrest

/-- The members of an object are those of its properties that can be got and are written. -/
def ShowsMembers (s : Schema) (projection : Projection) (d : Container)
    (properties : List (String × Value)) (path : String) (members : NameMap Json) : Prop :=
  ∀ p ∈ d.properties, p.isDiscriminator = false →
    if p.gettable = true ∧
        projection.isWritten (WriteOptions.propertyPath path p.name) p.fetchedByDefault = true ∧
        (NameMap.find? p.name properties).isSome then
      ∃ j, members.find? p.name = some j ∧ ∀ w, NameMap.find? p.name properties = some w →
        Shows s projection w p.type (WriteOptions.propertyPath path p.name) j
    else members.find? p.name = none

theorem admits_projecting (projection : Projection) (path : String) (p : Property) :
    (projecting projection).admits path p =
      (p.gettable && projection.isWritten path p.fetchedByDefault) := by
  simp [WriteOptions.admits, projecting, AccessRules.permits]

/-- A step to a property of an object, in what shows its members. -/
theorem ShowsMembers.property {d : Container} {properties : List (String × Value)}
    {members : NameMap Json} (h : ShowsMembers s projection d properties path members)
    {c : Container} {p : Property} {rest : List PathStep} {v : Value} {address : Address}
    (hp : d.property? p.name = some p)
    (hfollows : Path.Follows s c (.property c.name p :: rest))
    (hdiscriminator : ∀ q ∈ (PathStep.property c.name p :: rest).filterMap PathStep.property?,
      q.isDiscriminator = false)
    (hvalue : NameMap.find? p.name properties = some v) (hdenotes : Denotes rest p.type v address) :
    (((Json.object members).at? (.member p.name :: address)).isSome ↔
      ∀ q r, (q, r) ∈ Path.spelled path
          ((PathStep.property c.name p :: rest).filterMap PathStep.property?) →
        r.gettable = true ∧ projection.isWritten q r.fetchedByDefault = true) := by
  have hmember := h p (List.mem_of_find?_eq_some hp) (hdiscriminator p (by simp [PathStep.property?]))
  have hspelled : (PathStep.property c.name p :: rest).filterMap PathStep.property? =
      p :: rest.filterMap PathStep.property? := rfl
  rw [hspelled, Path.spelled]
  by_cases hwritten : p.gettable = true ∧
      projection.isWritten (WriteOptions.propertyPath path p.name) p.fetchedByDefault = true
  · rw [if_pos ⟨hwritten.1, hwritten.2, by rw [hvalue]; rfl⟩] at hmember
    obtain ⟨j, hj, hshows⟩ := hmember
    rw [Json.at?, hj]
    have hinner : (j.at? address).isSome ↔ ∀ q r,
        (q, r) ∈ Path.spelled (WriteOptions.propertyPath path p.name)
          (rest.filterMap PathStep.property?) →
        r.gettable = true ∧ projection.isWritten q r.fetchedByDefault = true := by
      have hrest : ∀ q ∈ rest.filterMap PathStep.property?, q.isDiscriminator = false :=
        fun q hq => hdiscriminator q (by rw [hspelled]; exact List.mem_cons_of_mem _ hq)
      cases hfollows with
      | last hlast =>
          cases hdenotes
          simp [Json.at?, Path.spelled]
      | property hlast hopened hfollowsRest =>
          refine hshows v hvalue _ rest address ?_ hfollowsRest hrest hdenotes
          unfold Path.opened at hopened
          split at hopened
          · exact hopened
          · cases hopened
    constructor
    · intro hsome q r hmem
      rcases List.mem_cons.1 hmem with heq | hmem
      · obtain ⟨rfl, rfl⟩ := Prod.mk.inj heq
        exact hwritten
      · exact hinner.1 hsome q r hmem
    · intro hall
      exact hinner.2 fun q r hmem => hall q r (List.mem_cons_of_mem _ hmem)
  · rw [if_neg (fun hall => hwritten ⟨hall.1, hall.2.1⟩)] at hmember
    rw [Json.at?, hmember]
    constructor
    · intro hsome
      cases hsome
    · intro hall
      exact absurd (hall _ _ List.mem_cons_self) hwritten

/-- What an object shows, from its members. -/
theorem ShowsMembers.shows (hs : s.Coherent) {name typeName : String} {c d : Container}
    {properties : List (String × Value)} {members : NameMap Json}
    (hc : s.container? name = some c) (hd : s.concrete c typeName = .ok d)
    (h : ShowsMembers s projection d properties path members) :
    Shows s projection (.object typeName properties) (.object name) path (.object members) := by
  intro c' steps address hc' hfollows hdiscriminator hdenotes
  obtain rfl : c = c' := Option.some.inj (hc.symm.trans hc')
  obtain ⟨hdmem, -, hunder, hcase⟩ := hs.concrete_cases hc hd
  cases hdenotes with
  | here => simp [Json.at?, Path.spelled]
  | element htype hitems hitem hrest => cases htype
  | @property container _ _ p rest _ v address hvalue hrest =>
      have hp : c.property? p.name = some p ∧ container = c.name := by
        cases hfollows with
        | last hp => exact ⟨hp, rfl⟩
        | property hp _ _ => exact ⟨hp, rfl⟩
      obtain ⟨hp, rfl⟩ := hp
      exact h.property (Schema.property?_of_inherited hunder hp) hfollows hdiscriminator hvalue hrest
  | @variant tag _ rest _ _ hrest =>
      cases hfollows with
      | @variant _ v _ _ htag hv hfollowsRest =>
          obtain rfl : d = v := hs.concrete_eq hc hd hv
          have hbase := hs.variant_base (List.mem_of_find?_eq_some hc) htag hv
          cases hrest with
          | here =>
              have hnone : [PathStep.variant typeName].filterMap PathStep.property? = [] := rfl
              rw [hnone]
              simp [Json.at?, Path.spelled]
          | element htype hitems hitem hrest => cases htype
          | @property container _ _ p rest _ v address hvalue hrest =>
              have hp : d.property? p.name = some p ∧ container = d.name := by
                cases hfollowsRest with
                | last hp => exact ⟨hp, rfl⟩
                | property hp _ _ => exact ⟨hp, rfl⟩
              obtain ⟨hp, rfl⟩ := hp
              exact h.property hp hfollowsRest hdiscriminator hvalue hrest
          | @variant tag' _ rest _ _ hrest =>
              cases hfollowsRest with
              | variant htag' _ _ =>
                  obtain ⟨_, _, hshape, -⟩ := Schema.shape_of_mem_variants htag'
                  rw [Schema.shape_of_base? hbase] at hshape
                  cases hshape

/-- What an object shows, from what its properties show. -/
theorem writeObject_emits (hs : s.Coherent) {name typeName : String}
    {properties : List (String × Value)}
    (h : ∀ key value, NameMap.find? key (writableProperties s (projecting projection) properties) =
      some value → ∃ w, NameMap.find? key properties = some w ∧
        ∀ type path, (value.write type path).Emits (Shows s projection w type path)) :
    (writeObject s (projecting projection) name typeName path
      (writableProperties s (projecting projection) properties)).Emits
      (Shows s projection (.object typeName properties) (.object name) path) := by
  unfold writeObject
  refine Writing.emits_lift_bind fun c hc => ?_
  refine Writing.emits_lift_bind fun d hd => ?_
  have hc? : s.container? name = some c := Schema.container_eq_ok_iff.1 hc
  obtain ⟨hdmem, -, hunder, -⟩ := hs.concrete_cases hc? hd
  refine (Writing.emits_members (P := ShowsMembers s projection d properties path) ?_).mono ?_
  · intro rest result final hrun
    have hnodup : ((d.properties.filter fun p =>
        c.discriminator?.map Property.name ≠ some p.name).map Property.name).Nodup :=
      (hs.named d hdmem).sublist (List.filter_sublist.map _)
    obtain ⟨members, pending, hfinal, -, hmembers⟩ :=
      Writing.outcome_writeProperties (Q := fun p j => ∀ w,
        NameMap.find? p.name properties = some w →
          Shows s projection w p.type (WriteOptions.propertyPath path p.name) j) rfl hnodup
        (by
          intro p _ value hvalue
          obtain ⟨w, hw, hemits⟩ := h p.name value hvalue
          refine (hemits p.type (WriteOptions.propertyPath path p.name)).mono ?_
          intro j hj w' hw'
          obtain rfl := Option.some.inj (hw.symm.trans hw')
          exact hj) hrun
    refine ⟨members, pending, ?_, hfinal⟩
    intro p hp hdiscriminator
    have hne := hs.ne_discriminator hdmem hunder hp hdiscriminator
    have hmember := hmembers p (List.mem_filter.2 ⟨hp, by simpa using hne⟩)
    simp only [admits_projecting, find?_writableProperties, Option.isSome_map,
      Bool.and_eq_true] at hmember
    by_cases hwritten : p.gettable = true ∧
        projection.isWritten (WriteOptions.propertyPath path p.name) p.fetchedByDefault = true ∧
        (NameMap.find? p.name properties).isSome
    · rw [if_pos ⟨⟨hwritten.1, hwritten.2.1⟩, hwritten.2.2⟩] at hmember
      rw [if_pos hwritten]
      exact hmember
    · rw [if_neg (fun hall => hwritten ⟨hall.1.1, hall.1.2, hall.2⟩)] at hmember
      rw [if_neg hwritten, hmember]
      split
      · cases hdiscriminatorName : c.discriminator? with
        | none => rfl
        | some q =>
            rw [hdiscriminatorName] at hne
            have : q.name ≠ p.name := fun heq => hne (by rw [Option.map_some, heq])
            simp [NameMap.find?, this]
      · rfl
  · rintro j ⟨members, hmembers, rfl⟩
    exact hmembers.shows hs hc? hd

theorem shows_declared {v : Value} {type : ValueType}
    (h : Shows s projection v (if type = .dynamic then .ofValue v else type) path j) :
    Shows s projection v type path j := by
  by_cases hdynamic : type = .dynamic
  · subst hdynamic
    refine shows_of_denotes_nil ?_
    intro step rest address hdenotes
    cases hdenotes with
    | element htype hitems hitem hrest => cases htype
  · rw [if_neg hdynamic] at h
    exact h

/-- A value of which there is no place inside is emitted as any value. -/
theorem writeLeaf_emits {v : Value} {type : ValueType}
    (h : ∀ step rest address, ¬Denotes (step :: rest) type v address) :
    (v.writeLeaf type).Emits (Shows s projection v type path) :=
  (Writing.emits_valueLeaf v type).mono fun _ _ => shows_of_denotes_nil h

theorem writeCollection_emits {v : Value} {type inner : ValueType} {items : List Value}
    (hv : v.elements? = some items) (htype : type.element? = some inner)
    (h : ∀ item ∈ items, (writeAt s (projecting projection) item inner path).Emits
      (Shows s projection item inner path)) :
    (do JsonOutput.beginCollection
        writeItems s (projecting projection) items inner path
        JsonOutput.endCollection : Writing Unit).Emits (Shows s projection v type path) := by
  refine (Writing.emits_collection (P := fun written => ∀ (i : Nat) item, items[i]? = some item →
    ∃ j, written[i]? = some j ∧ Shows s projection item inner path j) ?_).mono ?_
  · intro rest result final hrun
    obtain ⟨written, hfinal, hwritten⟩ := Writing.outcome_writeItems h hrun
    exact ⟨written, hwritten, hfinal⟩
  · rintro j ⟨written, hwritten, rfl⟩
    exact shows_elements hv htype hwritten

theorem writeMap_emits {entries : List (Value × Value)} {keyType inner : ValueType}
    (h : ∀ entry ∈ entries, (writeAt s (projecting projection) entry.2 inner path).Emits
      (Shows s projection entry.2 inner path)) :
    (do JsonOutput.beginMap
        writeEntries s (projecting projection) entries keyType inner path
        JsonOutput.endMap : Writing Unit).Emits
      (Shows s projection (.map entries) (.map keyType inner) path) := by
  refine (@Writing.emits_members none _ (fun members =>
    ∀ before key item after text, entries = before ++ (key, item) :: after →
      keyText keyType key = .ok text →
      (∀ entry ∈ after, keyText keyType entry.1 ≠ .ok text) →
      ∃ j, members.find? text = some j ∧ Shows s projection item inner path j) ?_).mono ?_
  · intro rest result final hrun
    obtain ⟨members, pending, hfinal, -, hmembers⟩ := Writing.outcome_writeEntries
      (P := fun item => Shows s projection item inner path) h hrun
    exact ⟨members, pending, hmembers, hfinal⟩
  · rintro j ⟨members, hmembers, rfl⟩
    exact shows_entries hmembers

end

/-! ## Values -/

section

variable {s : Schema} (hs : s.Coherent) (projection : Projection)

include hs

/-- What is written of a value shows its places. -/
theorem writeAt_emits (v : Value) : ∀ (type : ValueType) (path : String),
    (writeAt s (projecting projection) v type path).Emits (Shows s projection v type path) := by
  induction v using byParts with
  | object typeName properties hproperties =>
      intro type path
      refine Writing.Emits.mono ?_ fun _ => shows_declared
      rw [writeAt]
      generalize (if type = .dynamic then ValueType.ofValue (object typeName properties) else type) =
        declared
      split
      · refine writeObject_emits hs fun key value hvalue => ?_
        rw [find?_writableProperties] at hvalue
        obtain ⟨w, hw, rfl⟩ := Option.map_eq_some_iff.1 hvalue
        exact ⟨w, hw, hproperties (key, w) (NameMap.mem_of_find? hw)⟩
      · rename_i hobject
        refine writeLeaf_emits ?_
        intro step rest address hdenotes
        cases hdenotes with
        | element htype hitems hitem hrest => cases hitems
        | property hvalue hrest => exact hobject _ rfl
        | variant hrest => exact hobject _ rfl
  | list items hitems | set items hitems =>
      intro type path
      refine Writing.Emits.mono ?_ fun _ => shows_declared
      rw [writeAt]
      generalize (if type = .dynamic then ValueType.ofValue _ else type) = declared
      split
      · exact writeCollection_emits rfl rfl fun item hitem => hitems item hitem _ _
      · exact writeCollection_emits rfl rfl fun item hitem => hitems item hitem _ _
      · rename_i hlist hset
        refine writeLeaf_emits ?_
        intro step rest address hdenotes
        cases hdenotes with
        | @element _ _ _ inner _ _ _ _ _ htype hitems hitem hrest =>
            rcases ValueType.eq_of_element? htype with heq | heq
            · exact hlist inner heq
            · exact hset inner heq
  | map entries hentries =>
      intro type path
      refine Writing.Emits.mono ?_ fun _ => shows_declared
      rw [writeAt]
      generalize (if type = .dynamic then ValueType.ofValue (map entries) else type) = declared
      split
      · exact writeMap_emits fun entry hentry => hentries entry hentry _ _
      · rename_i hmap
        refine writeLeaf_emits ?_
        intro step rest address hdenotes
        cases hdenotes with
        | element htype hitems hitem hrest => cases hitems
        | entry htext hlast hrest => exact hmap _ _ rfl
  | plain v hv =>
      intro type path
      have hinside : ∀ {declared step rest address}, ¬Denotes (step :: rest) declared v address := by
        intro declared step rest address hdenotes
        cases hdenotes with
        | element htype hitems hitem hrest =>
            cases v with
            | list _ | set _ => cases hv
            | _ => cases hitems
        | property hvalue hrest => cases hv
        | variant hrest => cases hv
        | entry htext hlast hrest => cases hv
      refine Writing.Emits.mono ?_ fun _ => shows_declared
      cases v with
      | object _ _ | list _ | set _ | map _ => cases hv
      | null =>
          rw [writeAt]
          exact (Writing.emits_emit .null).mono fun _ _ => shows_of_denotes_nil fun _ _ _ => hinside
      | _ =>
          simp only [writeAt]
          exact writeLeaf_emits fun _ _ _ => hinside

end

end Value

/-- The document of a value shows its places. -/
theorem ValueType.document_shows {s : Schema} (hs : s.Coherent) {projection : Projection}
    {type : ValueType} {v : Value} {doc : Json}
    (h : type.document s (Value.projecting projection) v = .ok doc) :
    Value.Shows s projection v type "" doc := by
  unfold ValueType.document at h
  split at h
  · rename_i output hrun
    have hemits := Value.writeAt_emits hs projection v type ""
    obtain ⟨j, hj, hemit⟩ := hemits _ output hrun
    cases hemit
    cases h
    exact hj
  · cases h

end ResourceQuery
