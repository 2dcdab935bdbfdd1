import ResourceQuery.Proofs.Schema.Growth
/-!
# Well-formed schemas

What holds of every schema that is built (`SchemaDocument.build_wellFormed`): names are unique and
found, variants and bases refer to each other, identifiers and discriminators are single, and every
property keeps what its declaration was checked for. Each property is checked against the schema so
far, so what it was checked for has to survive all that is added later (`Property.Fits.grown`).
-/

namespace ResourceQuery

/-- The invariants of a schema that a document describes. -/
structure Schema.WellFormed (d : SchemaDocument) (s : Schema) : Prop where
  /-- Containers have different names, and each is found by its name. -/
  names : (s.containers.map Container.name).Nodup
  found : ∀ c ∈ s.containers, s.container? c.name = some c
  /-- The variants of a container are registered with it as base, and every variant is one of its
  base. -/
  variants : ∀ c ∈ s.containers, ∀ tag ∈ c.variants,
    ∃ v, s.container? tag = some v ∧ v.name = tag ∧ v.base? = some c.name
  bases : ∀ v ∈ s.containers, ∀ base, v.base? = some base →
    ∃ c, s.container? base = some c ∧ v.name ∈ c.variants
  propertyNames : ∀ c ∈ s.containers, (c.properties.map Property.name).Nodup
  propertyFound : ∀ c ∈ s.containers, ∀ p ∈ c.properties, c.property? p.name = some p
  /-- The positions that are kept with the properties lead to what a search finds. -/
  positioned : ∀ c ∈ s.containers, c.Positioned
  /-- There is at most one identifier and one discriminator. -/
  identifier : ∀ c ∈ s.containers, ∀ p ∈ c.properties, p.isId = true → c.identifier? = some p
  discriminator : ∀ c ∈ s.containers, ∀ p ∈ c.properties, p.isDiscriminator = true →
    c.discriminator? = some p
  identified : ∀ c ∈ s.containers, c.isPersistent = true → c.identifier?.isSome = true
  marked : ∀ c ∈ s.containers, c.isPolymorphic = true ∨ c.isVariant = true →
    c.discriminator?.isSome = true
  /-- A variant has the properties of its base, and behind them those declared for it. -/
  inherited : ∀ v ∈ s.containers, ∀ base, v.base? = some base →
    ∃ c own, s.container? base = some c ∧ v.properties = c.properties ++ own ∧
      (own.map Property.name).Perm (d.declaredNames v.name)
  /-- Types name registered containers, storage fits the type, and dependent references have their
  link on the other side. -/
  sound : ∀ c ∈ s.containers, ∀ p ∈ c.properties, p.Sound s c

/-! ## Growing -/

/-- The container stays what it is, and its properties stay. -/
structure Container.Grown (c c' : Container) : Prop where
  name : c'.name = c.name
  role : c'.role = c.role
  shape : c'.shape = c.shape
  kept : ∀ p ∈ c.properties, p ∈ c'.properties
  front : c.base? = none → c.properties <+: c'.properties

theorem Container.grown_extended (c : Container) (more : List Property) :
    c.Grown (c.extended more) where
  name := rfl
  role := rfl
  shape := rfl
  kept _ hp := List.mem_append_left more hp
  front _ := List.prefix_append _ _

theorem Container.grown_inheriting (s : Schema) (c : Container) : c.Grown (s.inheriting c) where
  name := s.inheriting_name c
  role := s.inheriting_role c
  shape := s.inheriting_shape c
  kept p hp := by
    cases hbase : c.base? with
    | none => rwa [Schema.inheriting_of_none hbase]
    | some base =>
        rw [Schema.inheriting_of_base hbase]
        exact List.mem_append_right _ hp
  front hbase := by simp only [Schema.inheriting_of_none hbase, List.prefix_rfl]

section Grown

variable {c c' : Container}

theorem Container.Grown.base? (h : c.Grown c') : c'.base? = c.base? := by
  rw [Container.base?, h.shape, ← Container.base?]

theorem Container.Grown.refl (c : Container) : c.Grown c :=
  ⟨rfl, rfl, rfl, fun _ => id, fun _ => List.prefix_rfl⟩

theorem Container.Grown.trans {c'' : Container} (h : c.Grown c') (h' : c'.Grown c'') :
    c.Grown c'' where
  name := h'.name.trans h.name
  role := h'.role.trans h.role
  shape := h'.shape.trans h.shape
  kept p hp := h'.kept p (h.kept p hp)
  front hbase := (h.front hbase).trans (h'.front (h.base? ▸ hbase))

theorem Container.Grown.isResource (h : c.Grown c') : c'.isResource = c.isResource := by
  rw [Container.isResource, h.role, ← Container.isResource]

/-- What comes behind does not change which identifier is found first. -/
theorem Container.Grown.identifier? (h : c.Grown c') (hbase : c.base? = none) {p : Property}
    (hp : c.identifier? = some p) : c'.identifier? = some p := by
  obtain ⟨more, hmore⟩ := h.front hbase
  rw [Container.identifier?] at hp
  rw [Container.identifier?, ← hmore, List.find?_append, hp, Option.some_or]

end Grown

namespace Schema

/-- Names, lookups and shapes are in order. -/
structure Ordered (s : Schema) : Prop where
  outlined : IsOutline s.outline
  named : s.HasNamedProperties

/-- Every container has grown into one of the other schema. -/
def Reaches (s t : Schema) : Prop := ∀ c ∈ s.containers, ∃ c' ∈ t.containers, c.Grown c'

theorem Reaches.refl (s : Schema) : s.Reaches s := fun c hc => ⟨c, hc, .refl c⟩

theorem Reaches.trans {s t u : Schema} (h : s.Reaches t) (h' : t.Reaches u) : s.Reaches u := by
  intro c hc
  obtain ⟨c', hc', hgrown⟩ := h c hc
  obtain ⟨c'', hc'', hgrown'⟩ := h' c' hc'
  exact ⟨c'', hc'', hgrown.trans hgrown'⟩

theorem reaches_extended (s : Schema) (more : String → List Property) :
    s.Reaches (s.extended more) := fun c hc =>
  ⟨_, List.mem_map_of_mem hc, c.grown_extended _⟩

theorem reaches_inheriting (s : Schema) : s.Reaches ⟨s.containers.map s.inheriting⟩ := fun c hc =>
  ⟨_, List.mem_map_of_mem hc, c.grown_inheriting s⟩

theorem resource_ok {s : Schema} {name : String} {c : Container} (h : s.resource name = .ok c) :
    s.container? name = some c ∧ c.isResource = true := by
  simp only [resource, bind_eq_ok_iff] at h
  obtain ⟨found, hfound, h⟩ := h
  split at h
  · rename_i hrole
    cases h
    exact ⟨container_eq_ok_iff.1 hfound, hrole⟩
  · cases h

theorem resource_of_container? {s : Schema} {name : String} {c : Container}
    (h : s.container? name = some c) (hrole : c.isResource = true) : s.resource name = .ok c := by
  rw [resource, container, h]
  simp [ok_bind, hrole, pure, Except.pure]

theorem filter_isResource_eq_some_iff {s : Schema} {name : String} {c : Container} :
    (s.container? name).filter Container.isResource = some c ↔ s.resource name = .ok c := by
  rw [Option.filter_eq_some_iff]
  exact ⟨fun h => resource_of_container? h.1 h.2, resource_ok⟩

theorem property?_of_mem {c : Container} (hnamed : (c.properties.map Property.name).Nodup)
    {p : Property} (hp : p ∈ c.properties) : c.property? p.name = some p := by
  have hfound : (c.property? p.name).isSome := List.find?_isSome.2 ⟨p, hp, by simp⟩
  obtain ⟨q, hq⟩ := Option.isSome_iff_exists.1 hfound
  have hname : q.name = p.name := by simpa using List.find?_some hq
  rw [hq, List.inj_on_of_nodup_map hnamed (List.mem_of_find?_eq_some hq) hp hname]

theorem property?_some {c : Container} {name : String} {p : Property}
    (h : c.property? name = some p) : p ∈ c.properties ∧ p.name = name :=
  ⟨List.mem_of_find?_eq_some h, by simpa using List.find?_some h⟩

/-- A property that is kept is found in the other container, too. -/
theorem property?_of_kept {c c' : Container} (hnamed : (c'.properties.map Property.name).Nodup)
    (hkept : ∀ q ∈ c.properties, q ∈ c'.properties) {name : String} {p : Property}
    (h : c.property? name = some p) : c'.property? name = some p := by
  obtain ⟨hmem, rfl⟩ := property?_some h
  exact property?_of_mem hnamed (hkept p hmem)

section Reaches

variable {s t : Schema} (h : s.Reaches t) (ht : t.Ordered)

include h ht

theorem Reaches.container? {name : String} {c : Container} (hc : s.container? name = some c) :
    ∃ c', t.container? name = some c' ∧ c.Grown c' := by
  obtain ⟨hmem, hname⟩ := container?_some hc
  obtain ⟨c', hmem', hgrown⟩ := h c hmem
  refine ⟨c', ?_, hgrown⟩
  rw [← hname, ← hgrown.name]
  exact container?_of_mem ht.outlined hmem'

theorem Reaches.registered {type : ValueType} (htype : type.Registered s) : type.Registered t := by
  induction type with
  | object name =>
      obtain ⟨c, hc, hrole⟩ := htype
      obtain ⟨c', hc', hgrown⟩ := h.container? ht hc
      exact ⟨c', hc', hgrown.isResource.trans hrole⟩
  | reference target =>
      cases target with
      | any => trivial
      | resource name =>
          obtain ⟨c, hc, hrole⟩ := htype
          obtain ⟨c', hc', hgrown⟩ := h.container? ht hc
          exact ⟨c', hc', hgrown.isResource.trans hrole⟩
  | list inner ih => exact ih htype
  | set inner ih => exact ih htype
  | map key inner ihKey ihInner => exact ⟨ihKey htype.1, ihInner htype.2⟩
  | scalar _ => trivial
  | enum _ => trivial
  | dynamic => trivial

theorem Reaches.linksBack {c c' : Container} (hc : c.Grown c') {type : ValueType} {reverse : String}
    (hlink : type.LinksBack s c reverse) : type.LinksBack t c' reverse := by
  obtain ⟨target, resource, back, htarget, hresource, hback, hkind, hsingle, hpersisted, source,
    hsource, hwhere⟩ := hlink
  obtain ⟨hfound, hrole⟩ := resource_ok hresource
  obtain ⟨resource', hfound', hgrown⟩ := h.container? ht hfound
  have hmem := (container?_some hfound').1
  have hback' : resource'.property? reverse = some back :=
    property?_of_kept (ht.named _ hmem) hgrown.kept hback
  refine ⟨target, resource', back, htarget, ?_, hback', hkind, hsingle, hpersisted, source, hsource,
    ?_⟩
  · exact resource_of_container? hfound' (hgrown.isResource.trans hrole)
  · rwa [hc.name, hc.base?]

theorem Reaches.sound {c c' : Container} (hc : c.Grown c') {p : Property} (hp : p.Sound s c) :
    p.Sound t c' where
  registered := h.registered ht hp.registered
  shallow := hp.shallow
  stored := hp.stored
  reversed reverse hkind := h.linksBack ht hc (hp.reversed reverse hkind)

end Reaches

end Schema

/-! ## What each property keeps -/

/-- A property is sound and stands where an identifier or a discriminator may stand: first of its
kind in a container of its own, and otherwise in the base. -/
structure Property.Fits (s : Schema) (c : Container) (p : Property) : Prop where
  sound : p.Sound s c
  single : p.isId = true → c.base? = none → c.identifier? = some p
  marks : p.isDiscriminator = true → c.base? = none → ∃ tags, c.shape = .polymorphic p.name tags
  ofBase : ∀ base, c.base? = some base → p.isId = true ∨ p.isDiscriminator = true →
    ∃ b ∈ s.containers, b.name = base ∧ p ∈ b.properties

namespace Schema

/-- All properties fit. -/
def Fitting (s : Schema) : Prop := ∀ c ∈ s.containers, ∀ p ∈ c.properties, p.Fits s c

theorem Reaches.fits {s t : Schema} (h : s.Reaches t) (ht : t.Ordered) {c c' : Container}
    (hc : c.Grown c') {p : Property} (hp : p.Fits s c) : p.Fits t c' where
  sound := h.sound ht hc hp.sound
  single hid hbase := by
    rw [hc.base?] at hbase
    exact hc.identifier? hbase (hp.single hid hbase)
  marks hmark hbase := by
    rw [hc.base?] at hbase
    rw [hc.shape]
    exact hp.marks hmark hbase
  ofBase base hbase hkind := by
    rw [hc.base?] at hbase
    obtain ⟨b, hb, hname, hmem⟩ := hp.ofBase base hbase hkind
    obtain ⟨b', hb', hgrown⟩ := h b hb
    exact ⟨b', hb', hgrown.name.trans hname, hgrown.kept p hmem⟩

/-- A property that fits where it is put leaves all others fitting. -/
theorem fitting_extended {s : Schema} {name : String} {p : Property}
    (ht : (s.extended (single name p)).Ordered) (hs : s.Fitting)
    (hp : ∀ c ∈ s.containers, c.name = name →
      p.Fits (s.extended (single name p)) (c.extended [p])) :
    (s.extended (single name p)).Fitting := by
  intro c' hc' q hq
  obtain ⟨c, hc, rfl⟩ := List.mem_map.1 hc'
  have hgrown := c.grown_extended (single name p c.name)
  rcases List.mem_append.1 hq with hq | hq
  · exact (s.reaches_extended _).fits ht hgrown (hs c hc q hq)
  · by_cases hname : c.name = name
    · rw [single, if_pos hname] at hq ⊢
      rw [List.mem_singleton.1 hq]
      exact hp c hc hname
    · rw [single, if_neg hname] at hq
      cases hq

theorem declare_fitting {s t : Schema} {name : String} {d : PropertyDeclaration}
    (h : s.declare name d = .ok t) (ho : IsOutline s.outline) (ht : t.Ordered) (hs : s.Fitting) :
    t.Fitting := by
  obtain ⟨c, kind, p, hc, -, hp, rfl, hfirst⟩ := declare_eq h
  obtain ⟨hmem, hname⟩ := container_ok hc
  obtain ⟨hmark, hid⟩ := PropertyDeclaration.build_kind hp
  refine fitting_extended ht hs fun c' hc' hname' => ?_
  obtain rfl := container_unique ho hc' hmem (hname'.trans hname.symm)
  refine ⟨(s.reaches_extended _).sound ht (c'.grown_extended _)
    (PropertyDeclaration.build_sound hp), ?_, ?_, ?_⟩
  · intro hkind _
    rw [Container.identifier?, Container.extended_properties, List.find?_append,
      ← Container.identifier?, hfirst hkind, Option.none_or]
    simp [hkind]
  · intro hkind
    rw [hmark] at hkind
    cases hkind
  · intro base hbase hkind
    rw [hmark] at hkind
    have hnone := (hid (by simpa using hkind)).1
    rw [Container.extended_base?, hnone] at hbase
    cases hbase

/-- A discriminator names no container and is stored in a field of its container. -/
theorem sound_discriminatorOf (s : Schema) (c c' : Container) (name : String)
    (variants : NameSet) : (discriminatorOf c name variants).Sound s c' where
  registered := trivial
  shallow _ := Nat.zero_le _
  stored persistence hpersistence storage hstorage := by
    simp only [discriminatorOf] at hpersistence
    split at hpersistence
    · cases hpersistence
      cases hstorage
    · cases hpersistence
  reversed reverse hkind := by cases hkind

theorem addDiscriminator_fitting {s t : Schema} {name : String}
    (h : s.addDiscriminator name = .ok t) (ho : IsOutline s.outline) (ht : t.Ordered)
    (hs : s.Fitting) : t.Fitting := by
  obtain ⟨c, hc, ⟨discriminator, variants, hshape, rfl⟩ | ⟨-, rfl⟩⟩ := addDiscriminator_eq ho h
  · obtain ⟨hmem, hname⟩ := container_ok hc
    refine fitting_extended ht hs fun c' hc' hname' => ?_
    obtain rfl := container_unique ho hc' hmem (hname'.trans hname.symm)
    have hnone : c'.base? = none := by rw [Container.base?, hshape]
    refine ⟨sound_discriminatorOf _ _ _ _ _, by simp [discriminatorOf, Property.isId], ?_, ?_⟩
    · exact fun _ _ => ⟨variants, hshape⟩
    · intro base hbase
      rw [Container.extended_base?, hnone] at hbase
      cases hbase
  · exact hs

/-- A link back to the base is one for its variants. -/
theorem linksBack_ofBase {s : Schema} {b c : Container} {type : ValueType} {reverse : String}
    (hb : b.base? = none) (hc : c.base? = some b.name) (h : type.LinksBack s b reverse) :
    type.LinksBack s c reverse := by
  obtain ⟨target, resource, back, htarget, hresource, hback, hkind, hsingle, hpersisted, source,
    hsource, hwhere⟩ := h
  refine ⟨target, resource, back, htarget, hresource, hback, hkind, hsingle, hpersisted, source,
    hsource, .inr ?_⟩
  rcases hwhere with rfl | hbase
  · exact hc
  · rw [hb] at hbase
    cases hbase

theorem inheriting_fitting {s : Schema} (ho : IsOutline s.outline)
    (ht : Ordered ⟨s.containers.map s.inheriting⟩) (hs : s.Fitting) :
    Fitting ⟨s.containers.map s.inheriting⟩ := by
  intro c' hc' p hp
  obtain ⟨c, hc, rfl⟩ := List.mem_map.1 hc'
  have hreaches := s.reaches_inheriting
  have hkept : p ∈ c.properties → p.Fits ⟨s.containers.map s.inheriting⟩ (s.inheriting c) :=
    fun hp => hreaches.fits ht (c.grown_inheriting s) (hs c hc p hp)
  cases hbase : c.base? with
  | none =>
      rw [inheriting_of_none hbase] at hp
      exact hkept hp
  | some base =>
      obtain ⟨b, hb, rfl⟩ := base_of_variant ho hc hbase
      rw [inheriting_of_base hbase, propertiesOf_name ho hb] at hp
      rcases List.mem_append.1 hp with hp | hp
      · have hnone := base?_of_variant ho hc hb hbase rfl
        have hfits := hreaches.fits ht (b.grown_inheriting s) (hs b hb p (hp))
        rw [inheriting_of_none hnone] at hfits
        have hbase' : (s.inheriting c).base? = some b.name := by rwa [inheriting_base?]
        refine ⟨⟨hfits.sound.registered, hfits.sound.shallow, hfits.sound.stored,
          fun reverse hkind => linksBack_ofBase hnone hbase' (hfits.sound.reversed reverse hkind)⟩,
          ?_, ?_, ?_⟩
        · intro _ h
          rw [hbase'] at h
          cases h
        · intro _ h
          rw [hbase'] at h
          cases h
        · intro other hother _
          rw [hbase'] at hother
          cases hother
          exact ⟨b, List.mem_map.2 ⟨b, hb, inheriting_of_none hnone⟩, rfl, hp⟩
      · exact hkept hp

/-! ## Building -/

/-- Names and shapes are settled, and what has been added so far fits. -/
structure Settled (outline : List (String × ContainerShape)) (s : Schema) : Prop where
  outlined : s.outline = outline
  named : s.HasNamedProperties
  fitting : s.Fitting

theorem Settled.declare {outline : List (String × ContainerShape)} (ho : IsOutline outline)
    {s t : Schema} (hs : s.Settled outline) {name : String} {d : PropertyDeclaration}
    (h : s.declare name d = .ok t) : t.Settled outline := by
  have houtline := (grows_outline (declare_grows h)).trans hs.outlined
  have hnamed := grows_named (declare_grows h) hs.named
  exact ⟨houtline, hnamed, declare_fitting h (hs.outlined ▸ ho) ⟨houtline ▸ ho, hnamed⟩ hs.fitting⟩

theorem Settled.addDiscriminator {outline : List (String × ContainerShape)} (ho : IsOutline outline)
    {s t : Schema} (hs : s.Settled outline) {name : String}
    (h : s.addDiscriminator name = .ok t) : t.Settled outline := by
  have houtline := (grows_outline (addDiscriminator_grows h)).trans hs.outlined
  have hnamed := grows_named (addDiscriminator_grows h) hs.named
  exact ⟨houtline, hnamed,
    addDiscriminator_fitting h (hs.outlined ▸ ho) ⟨houtline ▸ ho, hnamed⟩ hs.fitting⟩

theorem Settled.inherit {outline : List (String × ContainerShape)} (ho : IsOutline outline)
    {s t : Schema} (hs : s.Settled outline) (h : s.containers.foldlM inheritBase s = .ok t) :
    t.Settled outline := by
  have houtlined : IsOutline s.outline := hs.outlined ▸ ho
  obtain ⟨houtline, hnamed, -⟩ := inheritAll_ok h houtlined hs.named
  obtain rfl := inheritBases_eq houtlined h
  exact ⟨houtline.trans hs.outlined, hnamed,
    inheriting_fitting houtlined ⟨houtline ▸ houtlined, hnamed⟩ hs.fitting⟩

theorem Settled.stable {outline : List (String × ContainerShape)} (ho : IsOutline outline) :
    Stable (Settled outline) where
  declare _ _ _ _ hs h := hs.declare ho h
  addDiscriminator _ _ _ hs h := hs.addDiscriminator ho h
  inherit _ _ hs h := hs.inherit ho h

end Schema

/-- In a built schema all properties fit. -/
theorem SchemaDocument.build_settled {d : SchemaDocument} {s : Schema} (h : d.build = .ok s) :
    ∃ skeletons, d.types.foldlM (fun s entry => s.registerType entry.1 entry.2) Schema.empty =
      .ok skeletons ∧ s.Settled skeletons.outline := by
  obtain ⟨skeletons, hskeletons, hsteps⟩ := build_of_stable h
  obtain ⟨ho, hempty⟩ := skeletons_ok hskeletons
  refine ⟨skeletons, hskeletons, hsteps _ (Schema.Settled.stable ho)
    ⟨rfl, (skeletons_shaped hskeletons).named, fun c hc p hp => ?_⟩⟩
  rw [hempty c hc] at hp
  cases hp

/-- Every variant is one of those that its base lists. -/
theorem SchemaDocument.skeletons_listed {d : SchemaDocument} {skeletons : Schema}
    (h : d.types.foldlM (fun s entry => s.registerType entry.1 entry.2) Schema.empty =
      .ok skeletons) :
    ∀ name base, (name, .variant base) ∈ skeletons.outline →
      ∃ discriminator tags, (base, .polymorphic discriminator tags) ∈ skeletons.outline ∧
        name ∈ tags := by
  refine foldlM_invariant (P := fun u : Schema => ∀ name base, (name, .variant base) ∈ u.outline →
    ∃ discriminator tags, (base, .polymorphic discriminator tags) ∈ u.outline ∧ name ∈ tags)
    h (by simp [Schema.empty, Schema.outline]) ?_
  intro u entry w _ hu hw name base hmem
  simp only [Schema.registerType, bind_eq_ok_iff] at hw
  obtain ⟨_, -, shape, hshape, between, hregister, hvariants⟩ := hw
  have houtline := (Schema.registered_variants hvariants).1
  rw [(Schema.registered_concat hregister).1] at houtline
  rw [houtline, List.append_assoc] at hmem ⊢
  rcases List.mem_append.1 hmem with hmem | hmem
  · obtain ⟨discriminator, tags, hbase, htag⟩ := hu name base hmem
    exact ⟨discriminator, tags, List.mem_append_left _ hbase, htag⟩
  · rcases TypeDeclaration.shape_ok hshape with ⟨rfl, hnone⟩ | ⟨discriminator, rfl⟩
    · simp [hnone] at hmem
    · simp only [List.mem_append, List.mem_singleton, Prod.mk.injEq, reduceCtorEq, and_false,
        false_or, List.mem_map, ContainerShape.variant.injEq] at hmem
      obtain ⟨v, hv, rfl, rfl⟩ := hmem
      refine ⟨discriminator, _, List.mem_append_right _ (List.mem_append_left _
        (List.mem_singleton.2 rfl)), ?_⟩
      exact NameSet.mem_ofList.2 (List.mem_map_of_mem hv)

theorem find?_of_unique {α : Type} {items : List α} {want : α → Bool} {a : α} (ha : a ∈ items)
    (hwant : want a = true) (hunique : ∀ b ∈ items, want b = true → b = a) :
    items.find? want = some a := by
  obtain ⟨b, hb⟩ := Option.isSome_iff_exists.1 (List.find?_isSome.2 ⟨a, ha, hwant⟩)
  rw [hb, hunique b (List.mem_of_find?_eq_some hb) (List.find?_some hb)]

/-- Two identifiers of a container are one, and so are two discriminators; those of a variant are
properties of its base. -/
theorem Schema.Settled.unique {outline : List (String × ContainerShape)} (ho : IsOutline outline)
    {s : Schema} (hs : s.Settled outline) {c : Container} (hc : c ∈ s.containers) {p q : Property}
    (hp : p ∈ c.properties) (hq : q ∈ c.properties)
    (hkind : (p.isId = true ∧ q.isId = true) ∨
      (p.isDiscriminator = true ∧ q.isDiscriminator = true)) : p = q := by
  have houtlined : IsOutline s.outline := hs.outlined ▸ ho
  have hbaseUnique : ∀ b ∈ s.containers, b.base? = none → p ∈ b.properties → q ∈ b.properties →
      p = q := by
    intro b hb hnone hp hq
    rcases hkind with ⟨hpid, hqid⟩ | ⟨hpmark, hqmark⟩
    · have hpfirst := (hs.fitting b hb p hp).single hpid hnone
      have hqfirst := (hs.fitting b hb q hq).single hqid hnone
      exact Option.some.inj (hpfirst.symm.trans hqfirst)
    · obtain ⟨tags, hpshape⟩ := (hs.fitting b hb p hp).marks hpmark hnone
      obtain ⟨tags', hqshape⟩ := (hs.fitting b hb q hq).marks hqmark hnone
      have hname : p.name = q.name := by
        rw [hpshape] at hqshape
        injection hqshape
      exact List.inj_on_of_nodup_map (hs.named b hb) hp hq hname
  cases hbase : c.base? with
  | none => exact hbaseUnique c hc hbase hp hq
  | some base =>
      obtain ⟨b, hb, hname, hpb⟩ := (hs.fitting c hc p hp).ofBase base hbase
        (hkind.imp And.left And.left)
      obtain ⟨b', hb', hname', hqb⟩ := (hs.fitting c hc q hq).ofBase base hbase
        (hkind.imp And.right And.right)
      obtain rfl := container_unique houtlined hb hb' (hname.trans hname'.symm)
      exact hbaseUnique b hb (base?_of_variant houtlined hc hb hbase hname) hpb hqb

/-- Every container of a schema that is built was checked. -/
theorem SchemaDocument.build_checked {d : SchemaDocument} {s : Schema} (h : d.build = .ok s) :
    ∀ c ∈ s.containers, Schema.checkContainer c = .ok () := by
  obtain ⟨_, _, _, _, -, -, -, -, -, hchecked⟩ := build_steps h
  exact forM_eq_ok_iff.1 hchecked

/-- Containers with variants and the variants have a discriminator. -/
def Schema.Marked (s : Schema) : Prop :=
  ∀ c ∈ s.containers, c.isPolymorphic = true ∨ c.isVariant = true →
    c.discriminator?.isSome = true

theorem SchemaDocument.build_marked {d : SchemaDocument} {s : Schema} (h : d.build = .ok s) :
    s.Marked := fun c hc => (Schema.checkContainer_eq_ok_iff.1 (build_checked h c hc)).2

/-- A variant that a container names is registered, with the container as base. -/
theorem Schema.Coherent.variant_of_mem {s : Schema} (hs : s.Coherent) {c : Container}
    (hc : c ∈ s.containers) {tag : String} (htag : tag ∈ c.variants) :
    ∃ v, s.container? tag = some v ∧ v.name = tag ∧ v.base? = some c.name := by
  obtain ⟨discriminator, tags, hshape, hmem⟩ := Schema.shape_of_mem_variants htag
  have hvariant :=
    hs.outlined.variants c.name discriminator tags (hshape ▸ Schema.mem_outline hc) tag hmem
  obtain ⟨v, hv, heq⟩ := List.mem_map.1 hvariant
  obtain ⟨rfl, hvshape⟩ := Prod.mk.inj heq
  exact ⟨v, Schema.container?_of_mem hs.outlined hv, rfl, by rw [Container.base?, hvshape]⟩

theorem SchemaDocument.build_sound {d : SchemaDocument} {s : Schema} (h : d.build = .ok s) :
    ∀ c ∈ s.containers, ∀ p ∈ c.properties, p.Sound s c := by
  obtain ⟨_, -, hsettled⟩ := build_settled h
  exact fun c hc p hp => (hsettled.fitting c hc p hp).sound

/-- A container of a built schema has one identifier and one discriminator at most. -/
theorem SchemaDocument.build_unique {d : SchemaDocument} {s : Schema} (h : d.build = .ok s)
    {c : Container} (hc : c ∈ s.containers) {p q : Property} (hp : p ∈ c.properties)
    (hq : q ∈ c.properties)
    (hkind : (p.isId = true ∧ q.isId = true) ∨
      (p.isDiscriminator = true ∧ q.isDiscriminator = true)) : p = q := by
  obtain ⟨_, hskeletons, hsettled⟩ := build_settled h
  exact hsettled.unique (skeletons_ok hskeletons).1 hc hp hq hkind

/-- Every schema that is built is well-formed. -/
theorem SchemaDocument.build_wellFormed {d : SchemaDocument} {s : Schema} (h : d.build = .ok s) :
    s.WellFormed d := by
  have hcoherent := build_coherent h
  obtain ⟨skeletons, hskeletons, hsettled⟩ := build_settled h
  have ho := hcoherent.outlined
  refine
    { names := Schema.names_nodup ho
      found := fun c => Schema.container?_of_mem ho
      variants := fun c hc tag => hcoherent.variant_of_mem hc
      bases := ?_
      propertyNames := hcoherent.named
      propertyFound := fun c hc p => Schema.property?_of_mem (hcoherent.named c hc)
      positioned := fun c hc => Container.positioned (hcoherent.named c hc)
        (fun p hp q hq hid hid' => build_unique h hc hp hq (.inl ⟨hid, hid'⟩))
        fun p hp q hq hmark hmark' => build_unique h hc hp hq (.inr ⟨hmark, hmark'⟩)
      identifier := fun c hc p hp hid => find?_of_unique hp hid fun q hq hqid =>
        build_unique h hc hq hp (.inl ⟨hqid, hid⟩)
      discriminator := fun c hc p hp hmark => find?_of_unique hp hmark fun q hq hqmark =>
        build_unique h hc hq hp (.inr ⟨hqmark, hmark⟩)
      identified := fun c hc => (Schema.checkContainer_eq_ok_iff.1 (build_checked h c hc)).1
      marked := build_marked h
      inherited := fun _ hv _ hbase => build_inherited h hv hbase
      sound := build_sound h }
  · intro v hv base hbase
    have hmem := Schema.shape_of_base? hbase ▸ Schema.mem_outline hv
    rw [hsettled.outlined] at hmem
    obtain ⟨discriminator, tags, hpolymorphic, htag⟩ := skeletons_listed hskeletons _ _ hmem
    rw [← hsettled.outlined] at hpolymorphic
    obtain ⟨c, hc, heq⟩ := List.mem_map.1 hpolymorphic
    obtain ⟨rfl, hshape⟩ := Prod.mk.inj heq
    exact ⟨c, Schema.container?_of_mem ho hc, by rwa [Container.variants, hshape]⟩

/-- Users with the order that names them, and payments by card. -/
def orderDocument : SchemaDocument where
  resources :=
    [{ name := "User"
       properties :=
        [{ name := "id", kind := some .id, type := "long" },
          { name := "order", kind := some .dependentReference, type := "ref(Order)",
            reverse := some "customer" }] },
      { name := "Order"
        properties :=
          [{ name := "id", kind := some .id, type := "long" },
            { name := "customer", type := "ref(User)" }] }]
  objects :=
    [{ name := "Payment"
       discriminator := some "method"
       variants :=
        [{ name := "Card"
           properties := [{ name := "number", type := "string" }] }] }]

def identifierProperty : Property :=
  { name := "id", kind := .id, type := .scalar (.whole .long), settable := true,
    persistence := some ⟨"id", none⟩ }

def orderProperty : Property :=
  { name := "order", kind := .dependentReference "customer",
    type := .reference (.resource "Order"), settable := false }

def customerProperty : Property :=
  { name := "customer", kind := .reference, type := .reference (.resource "User"),
    settable := true, persistence := some ⟨"customer", none⟩ }

def userContainer : Container :=
  ⟨"User", .resource true, .plain, [identifierProperty, orderProperty]⟩

def orderSchema : Schema :=
  let method : Property :=
    { name := "method", kind := .discriminator, type := .enum ["Card"], settable := true,
      nullable := false, persistence := some ⟨"method", none⟩ }
  let number : Property :=
    { name := "number", kind := .simple, type := .string, settable := true,
      persistence := some ⟨"number", none⟩ }
  ⟨[userContainer,
    ⟨"Order", .resource true, .plain, [identifierProperty, customerProperty]⟩,
    ⟨"Payment", .object, .polymorphic "method" ["Card"], [method]⟩,
    ⟨"Card", .object, .variant "Payment", [method, number]⟩]⟩

/-- The order of a user is the one that names the user. -/
theorem orders_wellFormed :
    orderDocument.build = .ok orderSchema ∧ orderSchema.WellFormed orderDocument ∧
      orderProperty.type.LinksBack orderSchema userContainer "customer" := by
  have hwellFormed := SchemaDocument.build_wellFormed (d := orderDocument) (s := orderSchema) rfl
  refine ⟨rfl, hwellFormed, ?_⟩
  exact (hwellFormed.sound userContainer (by simp [orderSchema]) orderProperty
    (by simp [userContainer])).reversed "customer" rfl

end ResourceQuery
