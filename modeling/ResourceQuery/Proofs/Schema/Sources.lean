import Mathlib.Logic.Relation
import Mathlib.Order.Lattice.Nat
import ResourceQuery.Proofs.Schema.Derivation
import ResourceQuery.Proofs.Schema.Rearrangement
/-!
# Sources of aggregates

An aggregate is computed over the elements of a collection, and mostly over one of their properties:
its source, which may be an aggregate in turn. In a built schema every declared source is found, and
going from source to source ends (`SchemaDocument.build_acyclic`). Nothing looks for circles when a
schema is built; there are none because a source has to be there before what is computed over it.
What was found then has grown into what is found in the end (`SchemaDocument.build_recalls`).
-/

namespace ResourceQuery

/-- Aggregates are computed. -/
theorem Property.isComputed_of_aggregate? {p : Property} {aggregate : Aggregate}
    (h : p.aggregate? = some aggregate) : p.isComputed = true := by
  rw [Property.aggregate?] at h
  rw [Property.isComputed]
  cases hkind : p.kind <;> rw [hkind] at h <;> first | rfl | cases h

namespace Schema

/-- The container of the elements that an aggregate is computed over. -/
def element? (s : Schema) (c : Container) (aggregate : Aggregate) : Option Container := do
  let collection ← c.property? aggregate.collection
  s.container? (← collection.target?)

/-- The property of the elements that an aggregate of a container is computed over, with their
container. -/
def source? (s : Schema) (x : Container × Property) : Option (Container × Property) := do
  let aggregate ← x.2.aggregate?
  let element ← s.element? x.1 aggregate
  let source ← element.property? (← aggregate.source)
  return (element, source)

/-- An aggregate of the schema, be it taken over from a base, has a source. -/
def Draws (s : Schema) (x source : Container × Property) : Prop :=
  x.1 ∈ s.containers ∧ x.2 ∈ x.1.properties ∧ s.source? x = some source

/-- What a number of steps from source to source lead to. -/
def sourceAfter (s : Schema) : Nat → Container × Property → Option (Container × Property)
  | 0, x => some x
  | steps + 1, x => (s.source? x).bind (s.sourceAfter steps)

variable {s : Schema}

theorem element?_eq_some {c element : Container} {aggregate : Aggregate} :
    s.element? c aggregate = some element ↔ ∃ collection target,
      c.property? aggregate.collection = some collection ∧ collection.target? = some target ∧
        s.container? target = some element := by
  simp only [element?, Option.bind_eq_bind, Option.bind_eq_some_iff, exists_and_left]

theorem mem_of_element? {c element : Container} {aggregate : Aggregate}
    (h : s.element? c aggregate = some element) : element ∈ s.containers := by
  obtain ⟨_, _, -, -, hfound⟩ := element?_eq_some.1 h
  exact (container?_some hfound).1

theorem source?_eq_some {c element : Container} {p source : Property} :
    s.source? (c, p) = some (element, source) ↔ ∃ aggregate name,
      p.aggregate? = some aggregate ∧ s.element? c aggregate = some element ∧
        aggregate.source = some name ∧ element.property? name = some source := by
  simp only [source?, Option.bind_eq_bind, Option.bind_eq_some_iff]
  constructor
  · rintro ⟨aggregate, haggregate, element, helement, name, hname, source, hsource, heq⟩
    cases heq
    exact ⟨aggregate, name, haggregate, helement, hname, hsource⟩
  · rintro ⟨aggregate, name, haggregate, helement, hname, hsource⟩
    exact ⟨aggregate, haggregate, element, helement, name, hname, source, hsource, rfl⟩

theorem source?_of_source {c : Container} {p : Property} {aggregate : Aggregate}
    (haggregate : p.aggregate? = some aggregate) (hsource : aggregate.source = none) :
    s.source? (c, p) = none := by
  rw [Option.eq_none_iff_forall_ne_some]
  rintro ⟨element, source⟩ hfound
  obtain ⟨_, name, hsame, -, hname, -⟩ := source?_eq_some.1 hfound
  obtain rfl := Option.some.inj (haggregate.symm.trans hsame)
  rw [hsource] at hname
  cases hname

theorem source?_of_not_computed {c : Container} {p : Property} (h : p.isComputed = false) :
    s.source? (c, p) = none := by
  rw [Option.eq_none_iff_forall_ne_some]
  rintro ⟨element, source⟩ hfound
  obtain ⟨_, _, haggregate, -⟩ := source?_eq_some.1 hfound
  rw [Property.isComputed_of_aggregate? haggregate] at h
  cases h

end Schema

/-- What is computed is not stored. -/
theorem PropertyDeclaration.unstored_of_build {d : PropertyDeclaration} {s : Schema} {c : Container}
    {kind : DeclaredKind} {p : Property} (h : d.build s c kind = .ok p)
    (hcomputed : p.isComputed = true) : p.isPersisted = false := by
  simp only [build, refuse_bind, throw_bind, ite_error_eq_ok_iff, bind_eq_ok_iff] at h
  obtain ⟨_, type, -, _, -, k, -, persistence, hpersistence, -, heq⟩ := h
  cases heq
  have hk : k.isComputed = true := hcomputed
  simp only [PropertyDeclaration.persistence, hk, Bool.not_true, Bool.and_false,
    Bool.false_eq_true, if_false, refuse_bind, ite_error_eq_ok_iff] at hpersistence
  cases hpersistence.2
  rfl

theorem SchemaDocument.build_unstored {d : SchemaDocument} {s : Schema} (h : d.build = .ok s) :
    s.Everywhere fun _ _ p => p.isComputed = true → p.isPersisted = false := by
  refine build_everywhere ?_ h
  constructor
  case grown => exact fun _ _ _ _ _ hp => hp
  case declared => exact fun _ _ _ hbuild => PropertyDeclaration.unstored_of_build hbuild
  case marking => exact fun _ _ hcomputed => by cases hcomputed
  case inherited => exact fun _ _ _ _ _ _ _ hp => hp

namespace Schema

/-! ## Lookups -/

/-- What is found over a collection is found over it where the same properties are kept. -/
theorem element?_of_kept {s : Schema} {c c' element : Container} {aggregate : Aggregate}
    (hnamed : (c'.properties.map Property.name).Nodup)
    (hkept : ∀ q ∈ c.properties, q ∈ c'.properties) (h : s.element? c aggregate = some element) :
    s.element? c' aggregate = some element := by
  obtain ⟨collection, target, hcollection, htarget, helement⟩ := element?_eq_some.1 h
  exact element?_eq_some.2
    ⟨collection, target, property?_of_kept hnamed hkept hcollection, htarget, helement⟩

theorem Reaches.element? {s t : Schema} (h : s.Reaches t) (ht : t.Ordered) {c element : Container}
    {aggregate : Aggregate} (helement : s.element? c aggregate = some element) :
    ∃ element', t.element? c aggregate = some element' ∧ element.Grown element' := by
  obtain ⟨collection, target, hcollection, htarget, hfound⟩ := element?_eq_some.1 helement
  obtain ⟨element', hfound', hgrown⟩ := h.container? ht hfound
  exact ⟨element', element?_eq_some.2 ⟨collection, target, hcollection, htarget, hfound'⟩, hgrown⟩

end Schema

/-- The property was declared as an aggregate for a holder, in a schema that had the elements of
its collection, with their source if one is declared. -/
structure Property.LookedUp (p : Property) (aggregate : Aggregate) (s : Schema)
    (holder element : Container) : Prop where
  declared : ∃ (d : PropertyDeclaration) (kind : DeclaredKind), d.build s holder kind = .ok p
  found : s.element? holder aggregate = some element
  source : ∀ name, aggregate.source = some name → (element.property? name).isSome

theorem PropertyDeclaration.lookedUp_of_build {d : PropertyDeclaration} {s : Schema} {c : Container}
    {kind : DeclaredKind} {p : Property} {aggregate : Aggregate} (h : d.build s c kind = .ok p)
    (haggregate : p.aggregate? = some aggregate) : ∃ element, p.LookedUp aggregate s c element := by
  have hdeclared := h
  simp only [build, refuse_bind, throw_bind, ite_error_eq_ok_iff, bind_eq_ok_iff] at h
  obtain ⟨_, type, -, _, -, k, hk, _, -, -, heq⟩ := h
  have hkind : p.kind = k := by
    cases heq
    rfl
  have hcomputed := Property.isComputed_of_aggregate? haggregate
  rw [Property.isComputed, hkind] at hcomputed
  rw [Property.aggregate?, hkind] at haggregate
  rcases propertyKind_computed hk hcomputed with ⟨reverse, rfl⟩ | ⟨dependent, hover⟩
  · cases haggregate
  · obtain ⟨other, _, collection, target, element, _, -, -, -, hcollection, -, htarget, helement,
      hsource, -, rfl⟩ := aggregateOver_eq_ok_iff.1 hover
    obtain rfl : other = aggregate := by
      cases dependent <;> exact Option.some.inj haggregate
    refine ⟨element, ⟨d, kind, hdeclared⟩, ?_, fun name hname => ?_⟩
    · exact Schema.element?_eq_some.2
        ⟨collection, target, hcollection, htarget, Schema.container_eq_ok_iff.1 helement⟩
    · rw [hname] at hsource
      obtain ⟨source, _, hfound, -, -⟩ := sourceKind_ok hsource
      rw [hfound]
      rfl

namespace Schema

/-- What an aggregate was declared over, for the container or for its base, has grown into what it
is computed over. -/
def Recalls (s : Schema) (c : Container) (p : Property) : Prop :=
  ∀ aggregate, p.aggregate? = some aggregate → ∃ before holder looked element,
    before.Reaches s ∧ (holder.name = c.name ∨ c.base? = some holder.name) ∧
    p.LookedUp aggregate before holder looked ∧ s.element? c aggregate = some element ∧
    looked.Grown element

end Schema

theorem SchemaDocument.build_recalls {d : SchemaDocument} {s : Schema} (h : d.build = .ok s) :
    s.Everywhere Schema.Recalls := by
  refine build_everywhere ?_ h
  constructor
  case grown =>
    intro s t c c' p hreaches ht _ hc' hgrown hp aggregate haggregate
    obtain ⟨before, holder, looked, element, hbefore, hholder, hlooked, helement, hmore⟩ :=
      hp aggregate haggregate
    obtain ⟨element', helement', hmore'⟩ := hreaches.element? ht helement
    refine ⟨before, holder, looked, element', hbefore.trans hreaches, ?_, hlooked,
      Schema.element?_of_kept (ht.named _ hc') hgrown.kept helement', hmore.trans hmore'⟩
    rwa [hgrown.name, hgrown.base?]
  case declared =>
    intro s c d kind p _ _ _ hbuild aggregate haggregate
    obtain ⟨element, hlooked⟩ := PropertyDeclaration.lookedUp_of_build hbuild haggregate
    exact ⟨s, c, element, element, .refl s, .inl rfl, hlooked, hlooked.found, .refl element⟩
  case marking =>
    intro s c name variants _ _ aggregate haggregate
    cases haggregate
  case inherited =>
    intro s b c p ho _ hc hbase hnone hkept _ hp aggregate haggregate
    obtain ⟨before, holder, looked, element, hbefore, hholder, hlooked, helement, hmore⟩ :=
      hp aggregate haggregate
    refine ⟨before, holder, looked, element, hbefore, .inr ?_, hlooked,
      Schema.element?_of_kept (ho.named _ hc) hkept helement, hmore⟩
    rcases hholder with hname | hother
    · rw [hbase, hname]
    · rw [hnone] at hother
      cases hother

namespace Schema

/-- What an aggregate of a built schema is computed over is found, if it is declared. -/
theorem exists_source {d : SchemaDocument} {s : Schema} (h : d.build = .ok s) {c : Container}
    {p : Property} (hc : c ∈ s.containers) (hp : p ∈ c.properties) {aggregate : Aggregate}
    (haggregate : p.aggregate? = some aggregate) :
    (s.source? (c, p)).isSome = aggregate.source.isSome := by
  obtain ⟨_, _, _, element, -, -, hlooked, helement, hgrown⟩ :=
    SchemaDocument.build_recalls h c hc p hp aggregate haggregate
  cases hsource : aggregate.source with
  | none => rw [source?_of_source haggregate hsource, Option.isSome_none, Option.isSome_none]
  | some name =>
      obtain ⟨source, hfound⟩ := Option.isSome_iff_exists.1 (hlooked.source name hsource)
      have hnamed := (SchemaDocument.build_coherent h).named element (mem_of_element? helement)
      rw [source?_eq_some.2 ⟨aggregate, name, haggregate, helement, hsource,
        property?_of_kept hnamed hgrown.kept hfound⟩, Option.isSome_some, Option.isSome_some]

/-- From a property that is derived from stored and from transient ones, going from source to source
ends. -/
theorem sourceAfter_of_derived {s : Schema}
    (hs : s.Everywhere fun _ _ p => p.isComputed = true → p.isPersisted = false) {c : Container}
    {p : Property} (hp : p.Derived s Property.IsTransient c) (hcMem : c ∈ s.containers)
    (hpMem : p ∈ c.properties) : ∃ steps, s.sourceAfter steps (c, p) = none := by
  have hends : ∀ {x}, s.source? x = none → ∃ steps, s.sourceAfter steps x = none := by
    intro x hx
    exact ⟨1, by rw [sourceAfter, hx]; rfl⟩
  induction hp with
  | given htransient => exact hends (source?_of_not_computed htransient.2)
  | stored hstored =>
      refine hends (source?_of_not_computed ?_)
      rw [Bool.eq_false_iff]
      intro hcomputed
      rw [hs _ hcMem _ hpMem hcomputed] at hstored
      cases hstored
  | linked hkind _ =>
      refine hends (Option.eq_none_iff_forall_ne_some.2 ?_)
      rintro ⟨element, source⟩ hfound
      obtain ⟨_, _, haggregate, -⟩ := source?_eq_some.1 hfound
      rw [Property.aggregate?, hkind] at haggregate
      cases haggregate
  | counted hkind _ hsource _ => exact hends (source?_of_source hkind hsource)
  | summarized hkind hcollection hsource htarget helement hproperty _ _ _ ih =>
      obtain ⟨steps, hsteps⟩ := ih (container?_some helement).1 (property?_some hproperty).1
      have hfound := source?_eq_some.2 ⟨_, _, hkind,
        element?_eq_some.2 ⟨_, _, hcollection, htarget, helement⟩, hsource, hproperty⟩
      exact ⟨steps + 1, by rw [sourceAfter, hfound]; exact hsteps⟩

/-- How many steps from source to source there are. -/
noncomputable def depth (s : Schema) (x : Container × Property) : Nat :=
  sInf {steps | s.sourceAfter steps x = none}

/-- A source is one step closer to the end. -/
theorem Draws.depth_lt {s : Schema} {x source : Container × Property} (h : s.Draws x source)
    (hends : ∃ steps, s.sourceAfter steps x = none) : s.depth source < s.depth x := by
  have hend : s.sourceAfter (s.depth x) x = none := Nat.sInf_mem hends
  generalize s.depth x = steps at hend
  cases steps with
  | zero => cases hend
  | succ steps =>
      rw [sourceAfter, h.2.2, Option.bind_some] at hend
      exact Nat.lt_succ_of_le (Nat.sInf_le hend)

end Schema

/-- Aggregates are never circular: in a built schema every declared source is found, and each step
from an aggregate to its source leads closer to an end. -/
theorem SchemaDocument.build_acyclic {d : SchemaDocument} {s : Schema} (h : d.build = .ok s) :
    (∀ c ∈ s.containers, ∀ p ∈ c.properties, ∀ aggregate, p.aggregate? = some aggregate →
      (s.source? (c, p)).isSome = aggregate.source.isSome) ∧
    (∃ rank : Container × Property → Nat, ∀ x source, s.Draws x source → rank source < rank x) ∧
    (∀ x, ¬ Relation.TransGen s.Draws x x) ∧
    ∀ c ∈ s.containers, ∀ p ∈ c.properties, ∃ steps, s.sourceAfter steps (c, p) = none := by
  have hends : ∀ c ∈ s.containers, ∀ p ∈ c.properties, ∃ steps, s.sourceAfter steps (c, p) = none :=
    fun c hc p hp => Schema.sourceAfter_of_derived (build_unstored h) (build_derived h c hc p hp) hc
      hp
  have hdepth : ∀ x source, s.Draws x source → s.depth source < s.depth x :=
    fun x source hdraws => hdraws.depth_lt (hends x.1 hdraws.1 x.2 hdraws.2.1)
  have hpath : ∀ {x source}, Relation.TransGen s.Draws x source → s.depth source < s.depth x := by
    intro x source hpath
    induction hpath with
    | single hdraws => exact hdepth _ _ hdraws
    | tail _ hdraws ih => exact (hdepth _ _ hdraws).trans ih
  refine ⟨fun c hc p hp _ haggregate => Schema.exists_source h hc hp haggregate,
    ⟨s.depth, hdepth⟩, fun x hcircle => ?_, hends⟩
  exact Nat.lt_irrefl _ (hpath hcircle)

namespace SchemaDocument

/-- Nodes that know how many children they have. A folder adds up those of its children. -/
def folderDocument : SchemaDocument where
  resources :=
    [{ name := "Node"
       discriminator := some "kind"
       properties :=
        [{ name := "id", kind := some .id, type := "long" },
          { name := "parent", type := "ref(Node)" },
          { name := "children", kind := some .dependentReference, type := "list<ref(Node)>",
            reverse := some "parent" },
          nodeSize]
       variants := [{ name := "Folder", properties := [nodeTotal] }] }]
  objects := []

def sizeProperty : Property :=
  { name := "size"
    kind := .dependentAggregate { function := .count, collection := "children", source := none }
    type := .scalar (.whole .long), settable := false }

def totalProperty : Property :=
  { name := "total"
    kind := .dependentAggregate
      { function := .sum, collection := "children", source := some "size" }
    type := .scalar (.whole .long), settable := false }

def nodeContainer : Container :=
  let kind : Property :=
    { name := "kind", kind := .discriminator, type := .enum ["Folder"], settable := true,
      nullable := false, persistence := some ⟨"kind", none⟩ }
  let parent : Property :=
    { name := "parent", kind := .reference, type := .reference (.resource "Node"),
      settable := true, persistence := some ⟨"parent", none⟩ }
  let children : Property :=
    { name := "children", kind := .dependentReference "parent",
      type := .list (.reference (.resource "Node")), settable := false }
  ⟨"Node", .resource true, .polymorphic "kind" ["Folder"],
    [kind, identifierProperty, parent, children, sizeProperty]⟩

def folderContainer : Container :=
  ⟨"Folder", .resource true, .variant "Node", nodeContainer.properties ++ [totalProperty]⟩

def folderSchema : Schema := ⟨[nodeContainer, folderContainer]⟩

/-- The total of a folder leads to the sizes of its children, and from there nowhere. -/
theorem folderTotal_acyclic : folderDocument.build = .ok folderSchema ∧
    folderSchema.Draws (folderContainer, totalProperty) (nodeContainer, sizeProperty) ∧
    (∃ rank : Container × Property → Nat, rank (nodeContainer, sizeProperty) <
      rank (folderContainer, totalProperty)) ∧
    ∃ steps, folderSchema.sourceAfter steps (folderContainer, totalProperty) = none := by
  have hbuild : folderDocument.build = .ok folderSchema :=
    toOption_eq_some_iff.1 (by decide +kernel)
  have hfolder : folderContainer ∈ folderSchema.containers := by simp [folderSchema]
  have htotal : totalProperty ∈ folderContainer.properties := by simp [folderContainer]
  have hdraws : folderSchema.Draws (folderContainer, totalProperty) (nodeContainer, sizeProperty) :=
    ⟨hfolder, htotal, by decide +kernel⟩
  obtain ⟨-, ⟨rank, hrank⟩, -, hends⟩ := build_acyclic hbuild
  exact ⟨hbuild, hdraws, ⟨rank, hrank _ _ hdraws⟩, hends _ hfolder _ htotal⟩

end SchemaDocument

end ResourceQuery
