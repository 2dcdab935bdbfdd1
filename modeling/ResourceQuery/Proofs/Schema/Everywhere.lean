import ResourceQuery.Proofs.Schema.WellFormed
/-!
# What holds of all properties

What holds of a property where it is declared, is not lost as the schema grows and passes from a
base to its variants holds of every property of a built schema (`SchemaDocument.build_everywhere`).
-/

namespace ResourceQuery

namespace Schema

/-- It holds of all properties. -/
def Everywhere (K : Schema → Container → Property → Prop) (s : Schema) : Prop :=
  ∀ c ∈ s.containers, ∀ p ∈ c.properties, K s c p

/-- Every step of building keeps it. -/
structure Kept (K : Schema → Container → Property → Prop) : Prop where
  grown : ∀ {s t : Schema} {c c' : Container} {p : Property}, s.Reaches t → t.Ordered →
    c ∈ s.containers → c' ∈ t.containers → c.Grown c' → K s c p → K t c' p
  declared : ∀ {s : Schema} {c : Container} {d : PropertyDeclaration} {kind : DeclaredKind}
    {p : Property}, s.Ordered → s.Everywhere K → c ∈ s.containers → d.build s c kind = .ok p →
      K s c p
  marking : ∀ {s : Schema} {c : Container} {name : String} {variants : NameSet},
    c ∈ s.containers → c.shape = .polymorphic name variants →
      K s c (discriminatorOf c name variants)
  inherited : ∀ {s : Schema} {b c : Container} {p : Property}, s.Ordered → b ∈ s.containers →
    c ∈ s.containers → c.base? = some b.name → b.base? = none →
    (∀ q ∈ b.properties, q ∈ c.properties) → p ∈ b.properties → K s b p → K s c p

section

variable {K : Schema → Container → Property → Prop} (hK : Kept K) {s t : Schema}

include hK

theorem everywhere_extended {name : String} {p : Property}
    (ht : (s.extended (single name p)).Ordered) (hs : s.Everywhere K)
    (hp : ∀ c ∈ s.containers, c.name = name → K s c p) :
    (s.extended (single name p)).Everywhere K := by
  intro c' hc' q hq
  obtain ⟨c, hc, rfl⟩ := List.mem_map.1 hc'
  have hkept : K s c q → K (s.extended (single name p)) (c.extended (single name p c.name)) q :=
    hK.grown (s.reaches_extended _) ht hc hc' (c.grown_extended _)
  rcases List.mem_append.1 hq with hq | hq
  · exact hkept (hs c hc q hq)
  · by_cases hname : c.name = name
    · rw [single, if_pos hname] at hq
      obtain rfl := List.mem_singleton.1 hq
      exact hkept (hp c hc hname)
    · rw [single, if_neg hname] at hq
      cases hq

theorem declare_everywhere {name : String} {d : PropertyDeclaration}
    (h : s.declare name d = .ok t) (hso : s.Ordered) (ht : t.Ordered) (hs : s.Everywhere K) :
    t.Everywhere K := by
  obtain ⟨c, kind, p, hc, -, hp, rfl, -⟩ := declare_eq h
  obtain ⟨hmem, hname⟩ := container_ok hc
  refine everywhere_extended hK ht hs fun c' hc' hname' => ?_
  obtain rfl := container_unique hso.outlined hc' hmem (hname'.trans hname.symm)
  exact hK.declared hso hs hmem hp

theorem addDiscriminator_everywhere {name : String} (h : s.addDiscriminator name = .ok t)
    (hso : s.Ordered) (ht : t.Ordered) (hs : s.Everywhere K) : t.Everywhere K := by
  obtain ⟨c, hc, ⟨discriminator, variants, hshape, rfl⟩ | ⟨-, rfl⟩⟩ :=
    addDiscriminator_eq hso.outlined h
  · obtain ⟨hmem, hname⟩ := container_ok hc
    refine everywhere_extended hK ht hs fun c' hc' hname' => ?_
    obtain rfl := container_unique hso.outlined hc' hmem (hname'.trans hname.symm)
    exact hK.marking hmem hshape
  · exact hs

theorem inheriting_everywhere (hso : s.Ordered) (ht : Ordered ⟨s.containers.map s.inheriting⟩)
    (hs : s.Everywhere K) : Everywhere K ⟨s.containers.map s.inheriting⟩ := by
  have hkept : ∀ c ∈ s.containers, ∀ p ∈ c.properties,
      K ⟨s.containers.map s.inheriting⟩ (s.inheriting c) p := fun c hc p hp =>
    hK.grown s.reaches_inheriting ht hc (List.mem_map_of_mem hc) (c.grown_inheriting s)
      (hs c hc p hp)
  intro c' hc' p hp
  obtain ⟨c, hc, rfl⟩ := List.mem_map.1 hc'
  cases hbase : c.base? with
  | none =>
      rw [inheriting_of_none hbase] at hp
      exact hkept c hc p hp
  | some base =>
      obtain ⟨b, hb, rfl⟩ := base_of_variant hso.outlined hc hbase
      have hnone := base?_of_variant hso.outlined hc hb hbase rfl
      have hown : s.inheriting c = _ := inheriting_of_base hbase
      rw [propertiesOf_name hso.outlined hb] at hown
      have hbmem : b ∈ s.containers.map s.inheriting :=
        List.mem_map.2 ⟨b, hb, inheriting_of_none hnone⟩
      rw [hown] at hp
      rcases List.mem_append.1 hp with hp | hp
      · have hbkept := hkept b hb p hp
        rw [inheriting_of_none hnone] at hbkept
        refine hK.inherited ht hbmem hc' (by rwa [inheriting_base?]) hnone ?_ hp hbkept
        intro q hq
        rw [hown]
        exact List.mem_append_left _ hq
      · exact hkept c hc p hp

/-- In order, with the names and shapes that were registered, and it holds of all properties. -/
structure Keeping (K : Schema → Container → Property → Prop)
    (outline : List (String × ContainerShape)) (s : Schema) : Prop where
  outlined : s.outline = outline
  named : s.HasNamedProperties
  everywhere : s.Everywhere K

theorem Keeping.declare {outline : List (String × ContainerShape)} (ho : IsOutline outline)
    (hs : s.Keeping K outline) {name : String} {d : PropertyDeclaration}
    (h : s.declare name d = .ok t) : t.Keeping K outline := by
  have houtline := (grows_outline (declare_grows h)).trans hs.outlined
  have hnamed := grows_named (declare_grows h) hs.named
  exact ⟨houtline, hnamed, declare_everywhere hK h ⟨hs.outlined ▸ ho, hs.named⟩
    ⟨houtline ▸ ho, hnamed⟩ hs.everywhere⟩

theorem Keeping.addDiscriminator {outline : List (String × ContainerShape)} (ho : IsOutline outline)
    (hs : s.Keeping K outline) {name : String} (h : s.addDiscriminator name = .ok t) :
    t.Keeping K outline := by
  have houtline := (grows_outline (addDiscriminator_grows h)).trans hs.outlined
  have hnamed := grows_named (addDiscriminator_grows h) hs.named
  exact ⟨houtline, hnamed, addDiscriminator_everywhere hK h ⟨hs.outlined ▸ ho, hs.named⟩
    ⟨houtline ▸ ho, hnamed⟩ hs.everywhere⟩

theorem Keeping.inherit {outline : List (String × ContainerShape)} (ho : IsOutline outline)
    (hs : s.Keeping K outline) (h : s.containers.foldlM inheritBase s = .ok t) :
    t.Keeping K outline := by
  have houtlined : IsOutline s.outline := hs.outlined ▸ ho
  obtain ⟨houtline, hnamed, -⟩ := inheritAll_ok h houtlined hs.named
  obtain rfl := inheritBases_eq houtlined h
  exact ⟨houtline.trans hs.outlined, hnamed, inheriting_everywhere hK ⟨houtlined, hs.named⟩
    ⟨houtline ▸ houtlined, hnamed⟩ hs.everywhere⟩

theorem Keeping.stable {outline : List (String × ContainerShape)} (ho : IsOutline outline) :
    Stable (Keeping K outline) where
  declare _ _ _ _ hs h := hs.declare hK ho h
  addDiscriminator _ _ _ hs h := hs.addDiscriminator hK ho h
  inherit _ _ hs h := hs.inherit hK ho h

end

end Schema

/-- Building keeps the names and shapes that are registered first, and what every step of it keeps
of the properties. -/
theorem SchemaDocument.build_keeping {K : Schema → Container → Property → Prop}
    (hK : Schema.Kept K) {d : SchemaDocument} {s : Schema} (h : d.build = .ok s) :
    ∃ skeletons, d.types.foldlM (fun s entry => s.registerType entry.1 entry.2) Schema.empty =
      .ok skeletons ∧ s.Keeping K skeletons.outline := by
  obtain ⟨skeletons, hskeletons, hsteps⟩ := build_of_stable h
  obtain ⟨ho, hempty⟩ := skeletons_ok hskeletons
  refine ⟨skeletons, hskeletons, hsteps _ (Schema.Keeping.stable hK ho)
    ⟨rfl, (skeletons_shaped hskeletons).named, fun c hc p hp => ?_⟩⟩
  rw [hempty c hc] at hp
  cases hp

/-- What every step of building keeps holds of all properties in the end. -/
theorem SchemaDocument.build_everywhere {K : Schema → Container → Property → Prop}
    (hK : Schema.Kept K) {d : SchemaDocument} {s : Schema} (h : d.build = .ok s) :
    s.Everywhere K := by
  obtain ⟨_, -, hkeeping⟩ := build_keeping hK h
  exact hkeeping.everywhere

end ResourceQuery
