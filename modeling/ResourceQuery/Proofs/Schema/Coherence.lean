import Mathlib.Data.List.Nodup
import ResourceQuery.Proofs.NameMap
import ResourceQuery.Proofs.Outcome
import ResourceQuery.Proofs.Schema.Positions
import ResourceQuery.Schema.Build
/-!
# Coherence of built schemas

The containers of a built schema have different names, and so have the properties of a container. A
variant lists the properties of its base in front of its own (`build_coherent`). Names and shapes
are settled when the containers are registered; all later steps change properties only.
-/

namespace ResourceQuery

namespace Schema

/-- Names and shapes of all containers. -/
def outline (s : Schema) : List (String × ContainerShape) :=
  s.containers.map fun c => (c.name, c.shape)

/-- Names are unique, the variants of a container are registered as such, and a variant is one of a
polymorphic container. -/
structure IsOutline (outline : List (String × ContainerShape)) : Prop where
  nodup : (outline.map Prod.fst).Nodup
  variants : ∀ name discriminator tags, (name, .polymorphic discriminator tags) ∈ outline →
    ∀ tag ∈ tags, (tag, .variant name) ∈ outline
  bases : ∀ name base, (name, .variant base) ∈ outline →
    ∃ discriminator tags, (base, .polymorphic discriminator tags) ∈ outline

/-- The properties of a container have different names. -/
def HasNamedProperties (s : Schema) : Prop :=
  ∀ c ∈ s.containers, (c.properties.map Property.name).Nodup

/-- The properties of the base come first in the container with a name. -/
def Inherits (s : Schema) (name : String) : Prop :=
  ∀ v ∈ s.containers, v.name = name → ∀ base, v.base? = some base →
    ∀ c ∈ s.containers, c.name = base → c.properties <+: v.properties

structure Coherent (s : Schema) : Prop where
  outlined : IsOutline s.outline
  named : s.HasNamedProperties
  inherits : ∀ name, s.Inherits name

theorem mem_outline {s : Schema} {c : Container} (h : c ∈ s.containers) :
    (c.name, c.shape) ∈ s.outline := List.mem_map_of_mem h

theorem shape_unique {outline : List (String × ContainerShape)}
    (h : (outline.map Prod.fst).Nodup) {name : String} {shape other : ContainerShape}
    (hshape : (name, shape) ∈ outline) (hother : (name, other) ∈ outline) : shape = other := by
  induction outline with
  | nil => simp at hshape
  | cons entry rest ih =>
      rw [List.map_cons, List.nodup_cons] at h
      have hfresh : ∀ shape, (name, shape) ∈ rest → entry.1 ≠ name := by
        intro shape hmem heq
        exact h.1 (heq ▸ List.mem_map_of_mem hmem)
      rcases List.mem_cons.1 hshape with heq | hshape
      · rcases List.mem_cons.1 hother with heq' | hother
        · exact (Prod.mk.inj (heq.trans heq'.symm)).2
        · exact absurd (by rw [← heq]) (hfresh other hother)
      · rcases List.mem_cons.1 hother with heq' | hother
        · exact absurd (by rw [← heq']) (hfresh shape hshape)
        · exact ih h.2 hshape hother

/-! ## Registering -/

theorem register_ok {s t : Schema} {name : String} {role : ContainerRole} {shape : ContainerShape}
    (h : s.register name role shape = .ok t) :
    s.container? name = none ∧ t.containers = s.containers ++ [⟨name, role, shape, .empty⟩] := by
  unfold register at h
  split at h
  · cases h
  · rename_i hnone
    cases h
    exact ⟨by simpa using hnone, rfl⟩

theorem not_mem_names {s : Schema} {name : String} (h : s.container? name = none) :
    name ∉ s.outline.map Prod.fst := by
  intro hmem
  simp only [outline, List.map_map, List.mem_map, Function.comp_apply] at hmem
  obtain ⟨c, hc, hname⟩ := hmem
  have := List.find?_eq_none.1 h c hc
  simp [hname] at this

/-- Containers that are registered one after the other have names of their own and no properties. -/
theorem registered_concat {s t : Schema} {name : String} {role : ContainerRole}
    {shape : ContainerShape} (h : s.register name role shape = .ok t) :
    t.outline = s.outline ++ [(name, shape)] ∧
      ((s.outline.map Prod.fst).Nodup → (t.outline.map Prod.fst).Nodup) ∧
      ((∀ c ∈ s.containers, c.properties = []) → ∀ c ∈ t.containers, c.properties = []) := by
  obtain ⟨hnone, hcontainers⟩ := register_ok h
  have houtline : t.outline = s.outline ++ [(name, shape)] := by
    simp [outline, hcontainers]
  refine ⟨houtline, ?_, ?_⟩
  · intro hnodup
    rw [houtline, List.map_append, List.nodup_append]
    refine ⟨hnodup, by simp, ?_⟩
    intro a ha b hb heq
    obtain rfl : b = name := by simpa using hb
    exact not_mem_names hnone (heq ▸ ha)
  · intro hempty c hc
    rw [hcontainers] at hc
    rcases List.mem_append.1 hc with hc | hc
    · exact hempty c hc
    · obtain rfl : c = _ := by simpa using hc
      rfl

theorem registered_variants {s t : Schema} {role : ContainerRole} {base : String}
    {variants : List VariantDeclaration}
    (h : variants.foldlM (fun (s : Schema) (v : VariantDeclaration) => do
      checkTypeName v.name
      s.register v.name role (.variant base)) s = .ok t) :
    t.outline = s.outline ++ variants.map (fun v => (v.name, .variant base)) ∧
      ((s.outline.map Prod.fst).Nodup → (t.outline.map Prod.fst).Nodup) ∧
      ((∀ c ∈ s.containers, c.properties = []) → ∀ c ∈ t.containers, c.properties = []) := by
  induction variants generalizing s with
  | nil =>
      obtain rfl : s = t := by simpa [pure, Except.pure] using h
      exact ⟨by simp, id, id⟩
  | cons v rest ih =>
      rw [List.foldlM_cons] at h
      obtain ⟨between, hfirst, hrest⟩ := bind_eq_ok_iff.1 h
      obtain ⟨_, -, hregister⟩ := bind_eq_ok_iff.1 hfirst
      obtain ⟨houtline, hnodup, hempty⟩ := registered_concat hregister
      obtain ⟨houtline', hnodup', hempty'⟩ := ih hrest
      refine ⟨?_, hnodup' ∘ hnodup, hempty' ∘ hempty⟩
      rw [houtline', houtline, List.append_assoc]
      rfl

end Schema

/-- A declared type is plain or has variants. -/
theorem TypeDeclaration.shape_ok {d : TypeDeclaration} {shape : ContainerShape}
    (h : d.shape = .ok shape) :
    (shape = .plain ∧ d.variants = []) ∨
      ∃ discriminator, shape =
        .polymorphic discriminator (NameSet.ofList (d.variants.map VariantDeclaration.name)) := by
  unfold TypeDeclaration.shape at h
  split at h
  · rename_i discriminator _
    by_cases hname : (!Text.isIdentifier discriminator.toList) = true
    · rw [if_pos hname] at h
      cases h
    · rw [if_neg hname] at h
      by_cases hempty : d.variants.isEmpty = true
      · rw [if_pos hempty] at h
        cases h
      · rw [if_neg hempty] at h
        cases h
        exact .inr ⟨discriminator, rfl⟩
  · split at h
    · rename_i hempty
      cases h
      exact .inl ⟨rfl, by simpa using hempty⟩
    · cases h

namespace Schema

theorem isOutline_nil : IsOutline [] := ⟨by simp, by simp, by simp⟩

/-- A declared type keeps names and shapes in order: its variants follow it. -/
theorem isOutline_registerType {s t : Schema} {d : TypeDeclaration} {role : ContainerRole}
    (h : s.registerType d role = .ok t) (hs : IsOutline s.outline)
    (hempty : ∀ c ∈ s.containers, c.properties = []) :
    IsOutline t.outline ∧ ∀ c ∈ t.containers, c.properties = [] := by
  simp only [registerType, bind_eq_ok_iff] at h
  obtain ⟨_, -, shape, hshape, between, hregister, hvariants⟩ := h
  obtain ⟨houtline, hnodup, hempty'⟩ := registered_concat hregister
  obtain ⟨houtline', hnodup', hempty''⟩ := registered_variants hvariants
  refine ⟨⟨hnodup' (hnodup hs.nodup), ?_, ?_⟩, hempty'' (hempty' hempty)⟩
  · intro name discriminator tags hmem tag htag
    rw [houtline', houtline] at hmem ⊢
    simp only [List.mem_append, List.mem_singleton, List.mem_map] at hmem ⊢
    rcases hmem with (hmem | heq) | ⟨v, -, heq⟩
    · exact .inl (.inl (hs.variants name discriminator tags hmem tag htag))
    · right
      obtain ⟨rfl, hsame⟩ := Prod.mk.inj heq
      rcases TypeDeclaration.shape_ok hshape with ⟨hplain, -⟩ | ⟨other, hpolymorphic⟩
      · rw [hplain] at hsame
        cases hsame
      · rw [hpolymorphic] at hsame
        injection hsame with _ htags
        rw [htags] at htag
        obtain ⟨v, hv, rfl⟩ := List.mem_map.1 (NameSet.mem_ofList.1 htag)
        exact ⟨v, hv, rfl⟩
    · cases (Prod.mk.inj heq).2
  · intro name base hmem
    rw [houtline', houtline] at hmem ⊢
    simp only [List.mem_append, List.mem_singleton, List.mem_map] at hmem ⊢
    rcases hmem with (hmem | heq) | ⟨v, hv, heq⟩
    · obtain ⟨discriminator, tags, hbase⟩ := hs.bases name base hmem
      exact ⟨discriminator, tags, .inl (.inl hbase)⟩
    · have hsame := (Prod.mk.inj heq).2
      rcases TypeDeclaration.shape_ok hshape with ⟨hplain, -⟩ | ⟨other, hpolymorphic⟩
      · rw [hplain] at hsame
        cases hsame
      · rw [hpolymorphic] at hsame
        cases hsame
    · injection (Prod.mk.inj heq).2 with hbase
      rcases TypeDeclaration.shape_ok hshape with ⟨-, hnone⟩ | ⟨discriminator, hpolymorphic⟩
      · rw [hnone] at hv
        cases hv
      · exact ⟨discriminator, _, .inl (.inr (by rw [hpolymorphic, hbase]))⟩

/-! ## Changing properties -/

/-- Each container is what the operation makes of it, or what it was. -/
theorem modify_ok {s t : Schema} {name : String} {f : Container → Except Fault Container}
    (h : s.modify name f = .ok t)
    (hf : ∀ c c', f c = .ok c' → c'.name = c.name ∧ c'.shape = c.shape) :
    t.outline = s.outline ∧ ∀ c' ∈ t.containers, ∃ c ∈ s.containers,
      c'.name = c.name ∧ c'.shape = c.shape ∧
        ((c.name ≠ name ∧ c' = c) ∨ (c.name = name ∧ f c = .ok c')) := by
  simp only [modify, bind_eq_ok_iff] at h
  obtain ⟨containers, hcontainers, ht⟩ := h
  cases ht
  rw [mapM_eq_ok_iff] at hcontainers
  obtain ⟨containers'⟩ := s
  simp only [outline] at hcontainers ⊢
  induction containers' generalizing containers with
  | nil =>
      obtain rfl : containers = [] := by simpa using hcontainers.symm
      simp
  | cons c rest ih =>
      cases containers with
      | nil => simp at hcontainers
      | cons c' others =>
          simp only [List.map_cons, List.cons.injEq] at hcontainers
          obtain ⟨hfirst, hrest⟩ := hcontainers
          obtain ⟨houtline, hothers⟩ := ih others hrest
          have hc : c'.name = c.name ∧ c'.shape = c.shape ∧
              ((c.name ≠ name ∧ c' = c) ∨ (c.name = name ∧ f c = .ok c')) := by
            split at hfirst
            · rename_i heq
              obtain ⟨hname, hshape⟩ := hf c c' hfirst
              exact ⟨hname, hshape, .inr ⟨heq, hfirst⟩⟩
            · rename_i hne
              cases hfirst
              exact ⟨rfl, rfl, .inl ⟨hne, rfl⟩⟩
          refine ⟨by simp [houtline, hc.1, hc.2.1], ?_⟩
          intro d hd
          rcases List.mem_cons.1 hd with rfl | hd
          · exact ⟨c, by simp, hc⟩
          · obtain ⟨e, he, hde⟩ := hothers d hd
            exact ⟨e, by simp [he], hde⟩

end Schema

/-- A property is added under a new name, and an identifier only to a container without one. -/
theorem Container.add_eq_ok_iff {c c' : Container} {p : Property} :
    c.add p = .ok c' ↔ (p.isId = true → c.identifier? = none) ∧ c.property? p.name = none ∧
      c' = c.withProperties (c.properties ++ [p]) := by
  unfold add
  rw [isSome_table_identifier?, property?_eq_none_iff, PropertyTable.add_eq]
  change _ ↔ _ ∧ p.name ∉ c.table.properties.map Property.name ∧ _
  by_cases htaken : p.name ∈ c.table.properties.map Property.name
  · simp only [htaken, not_true_eq_false, false_and, and_false, iff_false]
    cases p.isId <;> cases c.identifier? <;> simp [throw_eq_error, error_bind]
  · simp only [htaken, not_false_eq_true, true_and]
    cases p.isId <;> cases c.identifier? <;>
      simp [throw_bind, pure, Except.pure, eq_comm, properties, withProperties]

theorem Container.add_ok {c c' : Container} {p : Property} (h : c.add p = .ok c') :
    c'.name = c.name ∧ c'.shape = c.shape ∧ c'.properties = c.properties ++ [p] ∧
      p.name ∉ c.properties.map Property.name := by
  obtain ⟨-, hfresh, rfl⟩ := add_eq_ok_iff.1 h
  exact ⟨rfl, rfl, rfl, property?_eq_none_iff.1 hfresh⟩

/-- Properties are inherited if all names differ. -/
theorem Container.inherit_eq_ok_iff {c c' : Container} {inherited : List Property} :
    c.inherit inherited = .ok c' ↔
      ((inherited ++ c.properties).map Property.name).Nodup ∧
        c' = c.withProperties (inherited ++ c.properties) := by
  unfold inherit
  cases htable : c.table.inherit inherited with
  | error own =>
      have hhidden : ¬((inherited ++ c.properties).map Property.name).Nodup := fun hnodup => by
        have hinherited := PropertyTable.inherit_eq_ok_iff.2 ⟨hnodup, rfl⟩
        rw [htable] at hinherited
        cases hinherited
      exact iff_of_false (fun h => by cases h) fun h => hhidden h.1
  | ok table =>
      obtain ⟨hnodup, rfl⟩ := PropertyTable.inherit_eq_ok_iff.1 htable
      simp only [Except.ok.injEq]
      exact ⟨fun h => ⟨hnodup, h.symm⟩, fun h => h.2.symm⟩

theorem Container.inherit_ok {c c' : Container} {inherited : List Property}
    (h : c.inherit inherited = .ok c') :
    c'.name = c.name ∧ c'.shape = c.shape ∧ c'.properties = inherited ++ c.properties ∧
      (c'.properties.map Property.name).Nodup := by
  obtain ⟨hnodup, rfl⟩ := inherit_eq_ok_iff.1 h
  exact ⟨rfl, rfl, rfl, hnodup⟩

namespace Schema

/-- A property was added to the container with a name, or nothing was done. -/
def Grows (name : String) (s t : Schema) : Prop :=
  t = s ∨ ∃ p : Container → Property, s.modify name (fun c => c.add (p c)) = .ok t

theorem declare_grows {s t : Schema} {name : String} {d : PropertyDeclaration}
    (h : s.declare name d = .ok t) : s.Grows name t := by
  simp only [declare, bind_eq_ok_iff] at h
  obtain ⟨_, -, _, -, property, -, hmodify⟩ := h
  exact .inr ⟨fun _ => property, hmodify⟩

theorem addDiscriminator_grows {s t : Schema} {name : String}
    (h : s.addDiscriminator name = .ok t) : s.Grows name t := by
  simp only [addDiscriminator, bind_eq_ok_iff] at h
  obtain ⟨c, -, h⟩ := h
  split at h
  · rename_i discriminator variants _
    exact .inr ⟨fun c => discriminatorOf c discriminator variants, h⟩
  · cases h
    exact .inl rfl

theorem grows_outline {s t : Schema} {name : String} (h : s.Grows name t) :
    t.outline = s.outline := by
  rcases h with rfl | ⟨p, h⟩
  · rfl
  · refine (modify_ok h ?_).1
    intro c c' hadd
    obtain ⟨hname, hshape, -⟩ := Container.add_ok hadd
    exact ⟨hname, hshape⟩

theorem grows_named {s t : Schema} {name : String} (h : s.Grows name t)
    (hs : s.HasNamedProperties) : t.HasNamedProperties := by
  rcases h with rfl | ⟨p, h⟩
  · exact hs
  · intro c' hc'
    have hmodify := (modify_ok h fun c c' hadd =>
      ⟨(Container.add_ok hadd).1, (Container.add_ok hadd).2.1⟩).2 c' hc'
    obtain ⟨c, hc, -, -, ⟨-, rfl⟩ | ⟨-, hadd⟩⟩ := hmodify
    · exact hs c' hc
    · obtain ⟨-, -, hproperties, hfresh⟩ := Container.add_ok hadd
      rw [hproperties, List.map_append, List.nodup_append]
      refine ⟨hs c hc, by simp, ?_⟩
      intro a ha b hb heq
      obtain rfl : b = (p c).name := by simpa using hb
      exact hfresh (heq ▸ ha)

theorem shape_of_base? {c : Container} {base : String} (h : c.base? = some base) :
    c.shape = .variant base := by
  unfold Container.base? at h
  split at h
  · rename_i name heq
    rw [heq, Option.some.inj h]
  · cases h

/-- What a variant names as its base has variants. -/
theorem isPolymorphic_of_variant {s : Schema} (ho : IsOutline s.outline) {v c : Container}
    (hv : v ∈ s.containers) (hc : c ∈ s.containers) {base : String} (hbase : v.base? = some base)
    (hname : c.name = base) : c.isPolymorphic = true := by
  have hshape := shape_of_base? hbase
  obtain ⟨discriminator, tags, hpolymorphic⟩ := ho.bases v.name base (hshape ▸ mem_outline hv)
  have hsame := shape_unique ho.nodup hpolymorphic (hname ▸ mem_outline hc)
  rw [Container.isPolymorphic, ← hsame]

/-- A variant has no variants. -/
theorem base?_of_variant {s : Schema} (ho : IsOutline s.outline) {v c : Container}
    (hv : v ∈ s.containers) (hc : c ∈ s.containers) {base : String} (hbase : v.base? = some base)
    (hname : c.name = base) : c.base? = none := by
  have hpolymorphic := isPolymorphic_of_variant ho hv hc hbase hname
  unfold Container.isPolymorphic at hpolymorphic
  split at hpolymorphic
  · rename_i heq
    rw [Container.base?, heq]
  · cases hpolymorphic

theorem names_nodup {s : Schema} (ho : IsOutline s.outline) :
    (s.containers.map Container.name).Nodup := by
  have := ho.nodup
  rwa [outline, List.map_map] at this

/-- Containers of one name are one container. -/
theorem container_unique {s : Schema} (ho : IsOutline s.outline) {c d : Container}
    (hc : c ∈ s.containers) (hd : d ∈ s.containers) (hname : c.name = d.name) : c = d :=
  List.inj_on_of_nodup_map (names_nodup ho) hc hd hname

/-! ## Looking up containers -/

theorem container?_of_mem {s : Schema} (ho : IsOutline s.outline) {c : Container}
    (hc : c ∈ s.containers) : s.container? c.name = some c := by
  have hfound : (s.container? c.name).isSome := List.find?_isSome.2 ⟨c, hc, by simp⟩
  obtain ⟨d, hd⟩ := Option.isSome_iff_exists.1 hfound
  have hname : d.name = c.name := by simpa using List.find?_some hd
  rw [hd, container_unique ho (List.mem_of_find?_eq_some hd) hc hname]

theorem container?_some {s : Schema} {name : String} {c : Container}
    (h : s.container? name = some c) : c ∈ s.containers ∧ c.name = name :=
  ⟨List.mem_of_find?_eq_some h, by simpa using List.find?_some h⟩

theorem container_of_mem {s : Schema} (ho : IsOutline s.outline) {c : Container}
    (hc : c ∈ s.containers) : s.container c.name = .ok c := by
  rw [container, container?_of_mem ho hc]

/-- Names and shapes tell the variants. -/
theorem isVariant_of_outline {s : Schema} (ho : IsOutline s.outline) {c : Container}
    (h : (c.name, c.shape) ∈ s.outline) : s.isVariant c.name = c.isVariant := by
  obtain ⟨found, hfound, heq⟩ := List.mem_map.1 h
  obtain ⟨hname, hshape⟩ := Prod.mk.inj heq
  rw [isVariant, ← hname, container?_of_mem ho hfound]
  simp [Container.isVariant, Container.base?, hshape]

/-! ## Additions -/

/-- A property that is added to a variant leaves inheritance as it is. -/
theorem grows_inherits {s t : Schema} {name : String} (h : s.Grows name t)
    (ho : IsOutline s.outline) (hvariant : ∀ c ∈ s.containers, c.name = name → c.base? ≠ none)
    {other : String} (hs : s.Inherits other) : t.Inherits other := by
  rcases h with rfl | ⟨p, h⟩
  · exact hs
  · have hmodify := (modify_ok h fun c c' hadd =>
      ⟨(Container.add_ok hadd).1, (Container.add_ok hadd).2.1⟩).2
    intro v' hv' hname base hbase c' hc' hbaseName
    obtain ⟨v, hv, hvname, hvshape, hvcase⟩ := hmodify v' hv'
    obtain ⟨c, hc, hcname, -, hccase⟩ := hmodify c' hc'
    have hvbase : v.base? = some base := by rw [← hbase, Container.base?, Container.base?, hvshape]
    have hunder := hs v hv (hvname ▸ hname) base hvbase c hc (hcname ▸ hbaseName)
    have hcsame : c' = c := by
      rcases hccase with ⟨-, heq⟩ | ⟨hcn, -⟩
      · exact heq
      · exact absurd (base?_of_variant ho hv hc hvbase (hcname ▸ hbaseName)) (hvariant c hc hcn)
    subst hcsame
    rcases hvcase with ⟨-, rfl⟩ | ⟨-, hadd⟩
    · exact hunder
    · rw [(Container.add_ok hadd).2.2.1]
      exact hunder.trans (List.prefix_append _ _)

/-! ## Inheriting -/

theorem container_ok {s : Schema} {name : String} {c : Container} (h : s.container name = .ok c) :
    c ∈ s.containers ∧ c.name = name := by
  have hfound := container_eq_ok_iff.1 h
  exact ⟨List.mem_of_find?_eq_some hfound, by simpa using List.find?_some hfound⟩

/-- A variant takes over its base; what other containers inherited stays. -/
theorem inheritBase_ok {s t : Schema} {c : Container} (h : s.inheritBase c = .ok t)
    (ho : IsOutline s.outline) (hnamed : s.HasNamedProperties)
    (hc : (c.name, c.shape) ∈ s.outline) :
    t.outline = s.outline ∧ t.HasNamedProperties ∧ t.Inherits c.name ∧
      ∀ name, name ≠ c.name → s.Inherits name → t.Inherits name := by
  unfold inheritBase at h
  split at h
  · rename_i base hbase
    obtain ⟨b, hb, hmodify⟩ := bind_eq_ok_iff.1 h
    obtain ⟨hbmem, hbname⟩ := container_ok hb
    have hshape : ∀ d d' : Container, d.inherit b.properties = .ok d' →
        d'.name = d.name ∧ d'.shape = d.shape :=
      fun d d' hd => ⟨(Container.inherit_ok hd).1, (Container.inherit_ok hd).2.1⟩
    obtain ⟨houtline, hcontainers⟩ := modify_ok hmodify hshape
    -- bases are no variants, so they are not changed
    have hvariant : ∀ d ∈ s.containers, d.name = c.name → d.base? = some base := by
      intro d hd hname
      have hsame := shape_unique ho.nodup hc (hname ▸ mem_outline hd)
      rw [← hbase, Container.base?, Container.base?, ← hsame]
    have hkept : ∀ v ∈ s.containers, ∀ base, v.base? = some base → ∀ d' ∈ t.containers,
        d'.name = base → d' ∈ s.containers := by
      intro v hv other hother d' hd' hname
      obtain ⟨d, hd, hdname, -, ⟨-, rfl⟩ | ⟨heq, -⟩⟩ := hcontainers d' hd'
      · exact hd
      · have hnone := base?_of_variant ho hv hd hother (hdname ▸ hname)
        rw [hvariant d hd heq] at hnone
        cases hnone
    refine ⟨houtline, ?_, ?_, ?_⟩
    · intro d' hd'
      obtain ⟨d, hd, -, -, ⟨-, rfl⟩ | ⟨-, hinherit⟩⟩ := hcontainers d' hd'
      · exact hnamed d' hd
      · exact (Container.inherit_ok hinherit).2.2.2
    · intro v' hv' hname other hother d' hd' hdname
      obtain ⟨v, hv, hvname, hvshape, hcase⟩ := hcontainers v' hv'
      have hvbase : v.base? = some other := by
        rw [← hother, Container.base?, Container.base?, hvshape]
      have hd := hkept v hv other hvbase d' hd' hdname
      rcases hcase with ⟨hne, -⟩ | ⟨-, hinherit⟩
      · exact absurd (hvname ▸ hname) hne
      · obtain rfl : base = other := by
          have := hvariant v hv (hvname ▸ hname)
          rw [hvbase] at this
          exact (Option.some.inj this).symm
        obtain rfl : d' = b := container_unique ho hd hbmem (hdname.trans hbname.symm)
        rw [(Container.inherit_ok hinherit).2.2.1]
        exact List.prefix_append _ _
    · intro name hne hs v' hv' hname other hother d' hd' hdname
      obtain ⟨v, hv, hvname, hvshape, hcase⟩ := hcontainers v' hv'
      have hvbase : v.base? = some other := by
        rw [← hother, Container.base?, Container.base?, hvshape]
      have hd := hkept v hv other hvbase d' hd' hdname
      rcases hcase with ⟨-, rfl⟩ | ⟨heq, -⟩
      · exact hs v' hv hname other hother d' hd hdname
      · exact absurd (hname.symm.trans (hvname.trans heq)) hne
  · rename_i hnone
    cases h
    refine ⟨rfl, hnamed, ?_, fun _ _ hs => hs⟩
    intro v hv hname base hbase
    have hsame := shape_unique ho.nodup hc (hname ▸ mem_outline hv)
    rw [Container.base?, ← hsame, ← Container.base?, hnone] at hbase
    cases hbase

theorem inheritBases_ok {s t : Schema} {items : List Container}
    (h : items.foldlM inheritBase s = .ok t) (ho : IsOutline s.outline)
    (hnamed : s.HasNamedProperties) (hitems : ∀ c ∈ items, (c.name, c.shape) ∈ s.outline)
    (hothers : ∀ name, name ∉ items.map Container.name → s.Inherits name) :
    t.outline = s.outline ∧ t.HasNamedProperties ∧ ∀ name, t.Inherits name := by
  induction items generalizing s with
  | nil =>
      obtain rfl : s = t := by simpa [pure, Except.pure] using h
      exact ⟨rfl, hnamed, fun name => hothers name (by simp)⟩
  | cons c rest ih =>
      rw [List.foldlM_cons] at h
      obtain ⟨between, hfirst, hrest⟩ := bind_eq_ok_iff.1 h
      obtain ⟨houtline, hnamed', hinherits, hkept⟩ :=
        inheritBase_ok hfirst ho hnamed (hitems c (by simp))
      have hstep : ∀ name, name ∉ rest.map Container.name → between.Inherits name := by
        intro name hname
        by_cases heq : name = c.name
        · exact heq ▸ hinherits
        · exact hkept name heq (hothers name (by simp [heq, hname]))
      obtain ⟨houtline', hnamed'', hinherits'⟩ := ih hrest (houtline ▸ ho) hnamed'
        (fun d hd => houtline ▸ hitems d (by simp [hd])) hstep
      exact ⟨houtline'.trans houtline, hnamed'', hinherits'⟩

/-- All containers take over the properties of their bases. -/
theorem inheritAll_ok {s t : Schema} (h : s.containers.foldlM inheritBase s = .ok t)
    (ho : IsOutline s.outline) (hnamed : s.HasNamedProperties) :
    t.outline = s.outline ∧ t.HasNamedProperties ∧ ∀ name, t.Inherits name :=
  inheritBases_ok h ho hnamed (fun _ hc => mem_outline hc) fun _ hname v hv hvname =>
    absurd (List.mem_map.2 ⟨v, hv, hvname⟩) hname

/-! ## Steps of building -/

/-- Computed properties are declared one by one. -/
theorem declareComputed_invariant {s t : Schema} {pending : List (String × PropertyDeclaration)}
    {P : Schema → Prop} (h : s.declareComputed pending = .ok t) (hs : P s)
    (hstep : ∀ u entry w, entry ∈ pending → P u → u.declare entry.1 entry.2 = .ok w → P w) :
    P t := by
  rw [declareComputed, List.partition_eq_filter_filter] at h
  exact foldlM_invariant h hs fun u entry w hentry =>
    hstep u entry w ((List.filter_append_perm _ pending).mem_iff.1 hentry)

/-- Every step of building keeps it, once the containers are registered. -/
structure Stable (P : Schema → Prop) : Prop where
  declare : ∀ s name d t, P s → declare s name d = .ok t → P t
  addDiscriminator : ∀ s name t, P s → addDiscriminator s name = .ok t → P t
  inherit : ∀ s t, P s → s.containers.foldlM inheritBase s = .ok t → P t

namespace Stable

variable {P : Schema → Prop} {s t : Schema}

theorem declarePlain (hP : Stable P) (hs : P s) {name : String}
    {properties : List PropertyDeclaration} (h : s.declarePlain name properties = .ok t) : P t := by
  obtain ⟨marked, hmarked, hdeclared⟩ := bind_eq_ok_iff.1 h
  exact foldlM_invariant hdeclared (hP.addDiscriminator _ _ _ hs hmarked) fun _ _ _ _ =>
    hP.declare _ _ _ _

theorem declareComputed (hP : Stable P) (hs : P s) {pending : List (String × PropertyDeclaration)}
    (h : s.declareComputed pending = .ok t) : P t :=
  declareComputed_invariant h hs fun _ _ _ _ => hP.declare _ _ _ _

end Stable

/-- Names and shapes are settled, and no container has two properties of one name. -/
structure Shaped (outline : List (String × ContainerShape)) (s : Schema) : Prop where
  outlined : s.outline = outline
  named : s.HasNamedProperties

section

variable {outline : List (String × ContainerShape)} {s t : Schema}

theorem Shaped.grows (hs : s.Shaped outline) {name : String} (h : s.Grows name t) :
    t.Shaped outline :=
  ⟨(grows_outline h).trans hs.outlined, grows_named h hs.named⟩

theorem Shaped.inherit (ho : IsOutline outline) (hs : s.Shaped outline)
    (h : s.containers.foldlM inheritBase s = .ok t) : t.Shaped outline := by
  obtain ⟨houtline, hnamed, -⟩ := inheritAll_ok h (hs.outlined ▸ ho) hs.named
  exact ⟨houtline.trans hs.outlined, hnamed⟩

theorem Shaped.stable (ho : IsOutline outline) : Stable (Shaped outline) where
  declare _ _ _ _ hs h := hs.grows (declare_grows h)
  addDiscriminator _ _ _ hs h := hs.grows (addDiscriminator_grows h)
  inherit _ _ hs h := hs.inherit ho h

end

end Schema

namespace Schema

theorem shape_of_mem_variants {c : Container} {tag : String} (h : tag ∈ c.variants) :
    ∃ discriminator tags, c.shape = .polymorphic discriminator tags ∧ tag ∈ tags := by
  unfold Container.variants at h
  split at h
  · rename_i discriminator tags heq
    exact ⟨discriminator, tags, heq, h⟩
  · cases h

/-- A variant that a container names is registered with it as base. -/
theorem Coherent.variant_base {s : Schema} (hs : s.Coherent) {c v : Container} {tag : String}
    (hc : c ∈ s.containers) (htag : tag ∈ c.variants) (hv : s.container? tag = some v) :
    v.base? = some c.name := by
  obtain ⟨discriminator, tags, hshape, hmem⟩ := shape_of_mem_variants htag
  have hbase := hs.outlined.variants c.name discriminator tags (hshape ▸ mem_outline hc) tag hmem
  have hvmem := List.mem_of_find?_eq_some hv
  have hvname : v.name = tag := by simpa using List.find?_some hv
  have hsame := shape_unique hs.outlined.nodup hbase (hvname ▸ mem_outline hvmem)
  rw [Container.base?, ← hsame]

/-- Properties of one name are one property. -/
theorem Coherent.property_unique {s : Schema} (hs : s.Coherent) {c : Container} {p q : Property}
    (hc : c ∈ s.containers) (hp : p ∈ c.properties) (hq : q ∈ c.properties)
    (hname : p.name = q.name) : p = q :=
  List.inj_on_of_nodup_map (hs.named c hc) hp hq hname

theorem checkContainer_eq_ok_iff {c : Container} :
    checkContainer c = .ok () ↔ (c.isPersistent = true → c.identifier?.isSome = true) ∧
      (c.isPolymorphic = true ∨ c.isVariant = true → c.discriminator?.isSome = true) := by
  unfold checkContainer
  rw [← Option.not_isSome, ← Option.not_isSome, c.isSome_table_identifier?,
    c.isSome_table_discriminator?]
  cases c.isPersistent <;> cases c.identifier?.isSome <;> cases c.isPolymorphic <;>
    cases c.isVariant <;> cases c.discriminator?.isSome <;>
    simp [throw_eq_error, error_bind, pure, Except.pure]

end Schema

/-- Containers are registered without properties. -/
theorem SchemaDocument.skeletons_ok {d : SchemaDocument} {skeletons : Schema}
    (h : d.types.foldlM (fun s entry => s.registerType entry.1 entry.2) Schema.empty =
      .ok skeletons) :
    Schema.IsOutline skeletons.outline ∧ ∀ c ∈ skeletons.containers, c.properties = [] := by
  refine foldlM_invariant
    (P := fun u : Schema => Schema.IsOutline u.outline ∧ ∀ c ∈ u.containers, c.properties = [])
    h ⟨Schema.isOutline_nil, by simp [Schema.empty]⟩ ?_
  intro u entry w _ hu hw
  exact Schema.isOutline_registerType hw hu.1 hu.2

theorem SchemaDocument.skeletons_shaped {d : SchemaDocument} {skeletons : Schema}
    (h : d.types.foldlM (fun s entry => s.registerType entry.1 entry.2) Schema.empty =
      .ok skeletons) : skeletons.Shaped skeletons.outline :=
  ⟨rfl, fun c hc => by simp [(skeletons_ok h).2 c hc]⟩

/-- The steps that a schema is built in. -/
theorem SchemaDocument.build_steps {d : SchemaDocument} {s : Schema} (h : d.build = .ok s) :
    ∃ skeletons plain bases inherited,
      d.types.foldlM (fun s entry => s.registerType entry.1 entry.2) Schema.empty =
        .ok skeletons ∧
      d.properties.foldlM (fun (s : Schema) entry => s.declarePlain entry.1 entry.2) skeletons =
        .ok plain ∧
      plain.declareComputed (d.computed.filter fun entry => !plain.isVariant entry.1) =
        .ok bases ∧
      bases.containers.foldlM Schema.inheritBase bases = .ok inherited ∧
      inherited.declareComputed (d.computed.filter fun entry => plain.isVariant entry.1) = .ok s ∧
      s.containers.forM Schema.checkContainer = .ok () := by
  simp only [SchemaDocument.build, bind_eq_ok_iff, List.partition_eq_filter_filter] at h
  obtain ⟨skeletons, hskeletons, plain, hplain, bases, hbases, inherited, hinherited, complete,
    hcomplete, _, hchecked, heq⟩ := h
  obtain rfl : complete = s := by simpa [pure, Except.pure] using heq
  exact ⟨skeletons, plain, bases, inherited, hskeletons, hplain, hbases, hinherited, hcomplete,
    hchecked⟩

/-- What every step keeps holds of the schema if it holds of the containers without properties. -/
theorem SchemaDocument.build_of_stable {d : SchemaDocument} {s : Schema} (h : d.build = .ok s) :
    ∃ skeletons, d.types.foldlM (fun s entry => s.registerType entry.1 entry.2) Schema.empty =
      .ok skeletons ∧ ∀ P, Schema.Stable P → P skeletons → P s := by
  obtain ⟨skeletons, plain, bases, inherited, hskeletons, hplain, hbases, hinherited, hcomplete, -⟩ :=
    build_steps h
  refine ⟨skeletons, hskeletons, fun P hP hstart => ?_⟩
  have hplainP : P plain := foldlM_invariant hplain hstart fun _ _ _ _ hu hw =>
    hP.declarePlain hu hw
  exact hP.declareComputed (hP.inherit _ _ (hP.declareComputed hplainP hbases) hinherited) hcomplete

/-- The schema of a document is coherent. -/
theorem SchemaDocument.build_coherent {d : SchemaDocument} {s : Schema} (h : d.build = .ok s) :
    s.Coherent := by
  obtain ⟨skeletons, plain, bases, inherited, hskeletons, hplain, hbases, hinherited, hcomplete, -⟩ :=
    build_steps h
  obtain ⟨ho, -⟩ := skeletons_ok hskeletons
  have hstable := Schema.Shaped.stable ho
  have hplainShaped : plain.Shaped skeletons.outline :=
    foldlM_invariant hplain (skeletons_shaped hskeletons) fun _ _ _ _ hu hw =>
      hstable.declarePlain hu hw
  have hbasesShaped := hstable.declareComputed hplainShaped hbases
  obtain ⟨-, -, hinherits⟩ :=
    Schema.inheritAll_ok hinherited (hbasesShaped.outlined ▸ ho) hbasesShaped.named
  -- what is computed for variants is added to no base, so that inheritance lasts
  have hfinal : s.Shaped skeletons.outline ∧ ∀ name, s.Inherits name := by
    refine Schema.declareComputed_invariant
      (P := fun u => u.Shaped skeletons.outline ∧ ∀ name, u.Inherits name) hcomplete
      ⟨hbasesShaped.inherit ho hinherited, hinherits⟩ ?_
    rintro u entry w hentry ⟨hu, huInherits⟩ hw
    have hgrows := Schema.declare_grows hw
    refine ⟨hu.grows hgrows, fun name => Schema.grows_inherits hgrows (hu.outlined ▸ ho) ?_
      (huInherits name)⟩
    intro c hc hname hnone
    have hvariant : plain.isVariant entry.1 = true := (List.mem_filter.1 hentry).2
    have houtline : u.outline = plain.outline := hu.outlined.trans hplainShaped.outlined.symm
    rw [← hname, Schema.isVariant_of_outline (hplainShaped.outlined ▸ ho)
      (houtline ▸ Schema.mem_outline hc), Container.isVariant, hnone] at hvariant
    cases hvariant
  exact ⟨hfinal.1.outlined ▸ ho, hfinal.1.named, hfinal.2⟩

end ResourceQuery
