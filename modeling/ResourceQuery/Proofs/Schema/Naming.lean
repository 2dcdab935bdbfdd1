import ResourceQuery.Proofs.Schema.Everywhere
import ResourceQuery.Proofs.Schema.Phases
/-!
# Names in a built schema

Types, discriminators and properties are named by identifiers. Types and discriminators get their
names when containers are registered, and properties where they are declared.
-/

namespace ResourceQuery

/-- The name and the discriminator, if it has one, are identifiers. -/
structure Container.IsNamed (c : Container) : Prop where
  name : Text.isIdentifier c.name.toList = true
  discriminator : ∀ discriminator tags, c.shape = .polymorphic discriminator tags →
    Text.isIdentifier discriminator.toList = true

namespace Schema

/-- All containers have identifiers for names and discriminators. -/
def IsNamed (s : Schema) : Prop := ∀ c ∈ s.containers, c.IsNamed

theorem IsNamed.of_outline {s t : Schema} (h : t.IsNamed)
    (houtline : ∀ entry ∈ s.outline, entry ∈ t.outline) : s.IsNamed := by
  intro c hc
  obtain ⟨c', hc', heq⟩ := List.mem_map.1 (houtline _ (mem_outline hc))
  obtain ⟨hname, hshape⟩ := Prod.mk.inj heq
  exact ⟨hname ▸ (h c' hc').name, fun discriminator tags hpolymorphic =>
    (h c' hc').discriminator discriminator tags (hshape.trans hpolymorphic)⟩

theorem Reaches.isNamed {s t : Schema} (h : s.Reaches t) (ht : t.IsNamed) : s.IsNamed := by
  refine ht.of_outline fun entry hentry => ?_
  obtain ⟨c, hc, rfl⟩ := List.mem_map.1 hentry
  obtain ⟨c', hc', hgrown⟩ := h c hc
  rw [← hgrown.name, ← hgrown.shape]
  exact mem_outline hc'

theorem checkTypeName_eq_ok_iff {name : String} {u : Unit} :
    checkTypeName name = .ok u ↔ Text.isIdentifier name.toList = true := by
  unfold checkTypeName
  split <;> simp_all

end Schema

namespace TypeDeclaration

theorem discriminator_of_shape {d : TypeDeclaration} {discriminator : String} {tags : NameSet}
    (h : d.shape = .ok (.polymorphic discriminator tags)) :
    Text.isIdentifier discriminator.toList = true := by
  unfold shape at h
  split at h
  · simp only [throw_bind, ite_error_eq_ok_iff] at h
    obtain ⟨hname, -, heq⟩ := h
    cases heq
    simpa using hname
  · split at h <;> cases h

theorem isNamed_skeletons {d : TypeDeclaration} {role : ContainerRole} {containers : List Container}
    (h : d.skeletons role = .ok containers) : ∀ c ∈ containers, c.IsNamed := by
  simp only [skeletons, bind_eq_ok_iff] at h
  obtain ⟨_, hname, shape, hshape, variants, hvariants, heq⟩ := h
  cases heq
  intro c hc
  rcases List.mem_cons.1 hc with rfl | hc
  · refine ⟨Schema.checkTypeName_eq_ok_iff.1 hname, ?_⟩
    rintro discriminator tags rfl
    exact discriminator_of_shape hshape
  · obtain ⟨made, hmade, hc⟩ := List.mem_flatten.1 hc
    obtain ⟨v, -, hv⟩ := (mem_of_mapM_eq_ok hvariants made).1 hmade
    obtain ⟨_, hvname, heq⟩ := bind_eq_ok_iff.1 hv
    cases heq
    obtain rfl := List.mem_singleton.1 hc
    exact ⟨Schema.checkTypeName_eq_ok_iff.1 hvname, fun _ _ hshape => by cases hshape⟩

end TypeDeclaration

namespace SchemaDocument

/-- Containers of a built schema are named as they were registered. -/
theorem build_isNamed {d : SchemaDocument} {s : Schema} (h : d.build = .ok s) : s.IsNamed := by
  have hnothing : Schema.Kept fun _ _ _ => True := by constructor <;> (intros; trivial)
  obtain ⟨skeletons, hskeletons, hkeeping⟩ := build_keeping hnothing h
  obtain ⟨lists, hlists, rfl, -⟩ := Schema.registerTypes_eq_ok_iff.1 hskeletons
  refine Schema.IsNamed.of_outline ?_ fun entry hentry => hkeeping.outlined ▸ hentry
  intro c hc
  obtain ⟨containers, hcontainers, hc⟩ := List.mem_flatten.1 hc
  obtain ⟨entry, -, hentry⟩ := (mem_of_mapM_eq_ok hlists containers).1 hcontainers
  exact TypeDeclaration.isNamed_skeletons hentry c hc

/-- The properties of a built schema are named by identifiers. -/
theorem build_named {d : SchemaDocument} {s : Schema} (h : d.build = .ok s) :
    s.Everywhere fun _ _ p => Text.isIdentifier p.name.toList = true := by
  -- a discriminator is an identifier because the container is named so
  have hkept : Schema.Kept fun s _ p => s.IsNamed → Text.isIdentifier p.name.toList = true := by
    constructor
    case grown => exact fun hreaches _ _ _ _ hp ht => hp (hreaches.isNamed ht)
    case declared =>
      intro s c d kind p _ _ _ hbuild _
      have hname := PropertyDeclaration.build_name hbuild
      simp only [PropertyDeclaration.build, throw_bind, ite_error_eq_ok_iff] at hbuild
      rw [hname]
      simpa using hbuild.1
    case marking => exact fun hc hshape hs => (hs _ hc).discriminator _ _ hshape
    case inherited => exact fun _ _ _ _ _ _ _ hp => hp
  exact fun c hc p hp => build_everywhere hkept h c hc p hp (build_isNamed h)

end SchemaDocument

end ResourceQuery
