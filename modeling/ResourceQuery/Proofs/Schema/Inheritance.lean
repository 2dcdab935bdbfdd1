import ResourceQuery.Proofs.Schema.Missing
import ResourceQuery.Proofs.Schema.Rearrangement
/-!
# What is seen of a base

Variants take over the properties of their base when all other containers are complete. The
dependent references and aggregates of variants are put in after that, so they find what is declared
for the base of a variant. Those of other containers do not, and a document that relies on it is
refused (`SchemaDocument.build_sees_inherited`).
-/

namespace ResourceQuery

namespace SchemaDocument

/-- A type of the document has a variant of the name. -/
def IsVariant (d : SchemaDocument) (name : String) : Prop :=
  ∃ entry ∈ d.types, name ∈ entry.1.variants.map VariantDeclaration.name

/-- A property of the name is declared for the base of a variant, and it is not computed. -/
def DeclaresForBase (d : SchemaDocument) (variant name : String) : Prop :=
  ∃ entry ∈ d.types, variant ∈ entry.1.variants.map VariantDeclaration.name ∧
    ∃ p ∈ entry.1.properties, p.isDeferred = false ∧ p.name = name

end SchemaDocument

theorem TypeDeclaration.skeletons_eq {t : TypeDeclaration} {role : ContainerRole}
    {containers : List Container} (h : t.skeletons role = .ok containers) :
    ∃ shape, t.shape = .ok shape ∧ containers = ⟨t.name, role, shape, .empty⟩ ::
      t.variants.map fun v => ⟨v.name, role, .variant t.name, .empty⟩ := by
  simp only [skeletons, bind_eq_ok_iff] at h
  obtain ⟨_, -, shape, hshape, lists, hlists, heq⟩ := h
  cases heq
  refine ⟨shape, hshape, congrArg _ ?_⟩
  replace hlists := mapM_eq_ok_iff_forall₂.1 hlists
  clear hshape
  generalize t.variants = variants at hlists
  induction hlists with
  | nil => rfl
  | cons hv _ ih =>
      obtain ⟨_, -, heq⟩ := bind_eq_ok_iff.1 hv
      cases heq
      rw [List.flatten_cons, ih]
      rfl

namespace SchemaDocument

variable {d : SchemaDocument} {skeletons : Schema}

section

variable (h : d.types.foldlM (fun s entry => s.registerType entry.1 entry.2) Schema.empty =
  .ok skeletons)

include h

/-- Variants are registered with their base. -/
theorem base_of_registered {entry : TypeDeclaration × ContainerRole} (hentry : entry ∈ d.types)
    {variant : String} (hvariant : variant ∈ entry.1.variants.map VariantDeclaration.name) :
    ∃ v, skeletons.container? variant = some v ∧ v.base? = some entry.1.name := by
  obtain ⟨lists, hlists, rfl, -⟩ := Schema.registerTypes_eq_ok_iff.1 h
  obtain ⟨containers, hmem, hcontainers⟩ := exists_of_mapM_eq_ok hlists hentry
  obtain ⟨shape, -, rfl⟩ := TypeDeclaration.skeletons_eq hcontainers
  obtain ⟨v, hv, rfl⟩ := List.mem_map.1 hvariant
  have hregistered : (⟨v.name, entry.2, .variant entry.1.name, .empty⟩ : Container) ∈ lists.flatten :=
    List.mem_flatten.2 ⟨_, hmem, List.mem_cons_of_mem _ (List.mem_map_of_mem hv)⟩
  exact ⟨_, Schema.container?_of_mem (skeletons_ok h).1 hregistered, rfl⟩

/-- No other containers are variants. -/
theorem isVariant_iff_registered {name : String} :
    skeletons.isVariant name = true ↔ d.IsVariant name := by
  constructor
  · intro hvariant
    obtain ⟨c, hc, hbase⟩ := (Option.any_eq_true _ _).1 hvariant
    obtain ⟨hmem, rfl⟩ := Schema.container?_some hc
    obtain ⟨lists, hlists, rfl, -⟩ := Schema.registerTypes_eq_ok_iff.1 h
    obtain ⟨containers, hcontainers, hc⟩ := List.mem_flatten.1 hmem
    obtain ⟨entry, hentry, hmade⟩ := (mem_of_mapM_eq_ok hlists containers).1 hcontainers
    obtain ⟨shape, hshape, rfl⟩ := TypeDeclaration.skeletons_eq hmade
    rcases List.mem_cons.1 hc with rfl | hc
    · rcases TypeDeclaration.shape_ok hshape with ⟨rfl, -⟩ | ⟨_, rfl⟩ <;> cases hbase
    · obtain ⟨v, hv, rfl⟩ := List.mem_map.1 hc
      exact ⟨entry, hentry, List.mem_map_of_mem hv⟩
  · rintro ⟨entry, hentry, hvariant⟩
    obtain ⟨v, hv, hbase⟩ := base_of_registered h hentry hvariant
    rw [Schema.isVariant, hv, Option.any_some, Container.isVariant, hbase]
    rfl

end

end SchemaDocument

namespace Schema

variable {s : Schema} {variant base name : String} {v : Container} {p : Property}
  (hv : s.container? variant = some v) (hbase : v.base? = some base)
  (hp : s.lookup base name = some p)

include hv hbase hp

/-- A variant that inherits has what its base has. -/
theorem lookup_inheriting :
    lookup ⟨s.containers.map s.inheriting⟩ variant name = some p := by
  obtain ⟨b, hb, hfound⟩ := lookup_eq_some.1 hp
  have hproperties : s.propertiesOf base = b.properties := by rw [propertiesOf, hb]; rfl
  refine lookup_eq_some.2 ⟨s.inheriting v, by rw [container?_inheriting, hv]; rfl, ?_⟩
  rw [inheriting_of_base hbase, hproperties, Container.property?,
    Container.withProperties_properties, List.find?_append, ← Container.property?, hfound,
    Option.some_or]

/-- A variant that can inherit has had no property of that name before. -/
theorem lookup_of_inheriting (hnamed : HasNamedProperties ⟨s.containers.map s.inheriting⟩) :
    s.lookup variant name = none := by
  obtain ⟨b, hb, hfound⟩ := lookup_eq_some.1 hp
  have hproperties : s.propertiesOf base = b.properties := by rw [propertiesOf, hb]; rfl
  rw [Option.eq_none_iff_forall_ne_some]
  intro q hq
  rw [lookup_of_container? hv] at hq
  have hnodup := hnamed _ (List.mem_map_of_mem (container?_some hv).1)
  rw [inheriting_of_base hbase, hproperties, Container.withProperties_properties, List.map_append,
    List.nodup_append] at hnodup
  obtain ⟨hpmem, hpname⟩ := property?_some hfound
  obtain ⟨hqmem, hqname⟩ := property?_some hq
  exact hnodup.2.2 _ (List.mem_map_of_mem hpmem) _ (List.mem_map_of_mem hqmem)
    (hpname.trans hqname.symm)

end Schema

namespace SchemaDocument

/-- The containers are registered, and their plain properties are there. -/
structure Prepared (d : SchemaDocument) (skeletons plain : Schema) : Prop where
  registered : d.types.foldlM (fun s entry => s.registerType entry.1 entry.2) Schema.empty =
    .ok skeletons
  run : skeletons.Run (d.properties.flatMap skeletons.plainAdditions) plain

/-- If the fault is that a variant misses something, then it is not declared for a base. -/
def SparesVariants (d : SchemaDocument) (fault : Fault) : Prop :=
  ∀ container target name, fault.missing? = some (container, target, name) →
    d.DeclaresForBase target name → ¬ d.IsVariant container

variable {d : SchemaDocument} {skeletons plain bases inherited : Schema}

theorem sparesVariants_of_none {fault : Fault} (h : fault.missing? = none) :
    d.SparesVariants fault := by
  intro _ _ _ hmissing
  rw [h] at hmissing
  cases hmissing

namespace Prepared

variable (h : d.Prepared skeletons plain)

include h

theorem isVariant_iff {name : String} : plain.isVariant name = true ↔ d.IsVariant name := by
  rw [← isVariant_iff_registered h.registered, Schema.isVariant_eq h.run.within.headers
    (skeletons_ok h.registered).1 h.run.ordered.outlined]

/-- What is declared for a base is there before variants inherit. -/
theorem lookup (hwithin : plain.Within bases) (ho : bases.Ordered) {variant name : String}
    (hdeclares : d.DeclaresForBase variant name) :
    ∃ v base p, bases.container? variant = some v ∧ v.base? = some base ∧
      bases.lookup base name = some p := by
  obtain ⟨entry, hentry, hvariant, p, hp, hplain, rfl⟩ := hdeclares
  obtain ⟨v, hv, hbase⟩ := base_of_registered h.registered hentry hvariant
  obtain ⟨v', hv', hheader⟩ := (h.run.within.trans hwithin).registered ho.outlined _ _ hv
  have haddition : Addition.declared entry.1.name p ∈
      d.properties.flatMap skeletons.plainAdditions := by
    refine List.mem_flatMap.2 ⟨(entry.1.name, entry.1.properties),
      List.mem_flatMap.2 ⟨entry, hentry, List.mem_cons_self⟩, List.mem_append_right _ ?_⟩
    exact List.mem_map_of_mem (List.mem_filter.2 ⟨hp, by simpa using hplain⟩)
  obtain ⟨_, made, -, -, hmade⟩ := h.run.made _ haddition
  refine ⟨v', entry.1.name, made, hv', ?_, hwithin.kept _ _ _ hmade⟩
  rw [Container.base?, (Container.header_inj hheader).2.2, ← Container.base?, hbase]

/-- Before variants inherit, only other containers miss anything. -/
theorem fails_bases : FailsBy d.SparesVariants (plain.putAll
    (Schema.completion (d.computed.filter fun entry => plain.isVariant entry.1 == false))) := by
  refine .foldlM fun u a ha => ?_
  obtain ⟨entry, hentry, rfl⟩ := Schema.mem_completion.1 ha
  rw [← Schema.declare_eq_put]
  refine (u.fails_declare entry.1 entry.2).imp fun fault hmisses container target name hmissing
    _ hvariant => ?_
  obtain ⟨rfl, -, -⟩ := hmisses _ _ _ hmissing
  have hother := (List.mem_filter.1 hentry).2
  rw [h.isVariant_iff.2 hvariant] at hother
  cases hother

/-- After that, nothing is missed that is declared for a base. -/
theorem fails_variants (hwithin : plain.Within bases) (ho : bases.Ordered)
    (hinheriting : bases.containers.foldlM Schema.inheritBase bases = .ok inherited)
    {pending : List (String × PropertyDeclaration)} :
    FailsBy d.SparesVariants (inherited.putAll (Schema.completion pending)) := by
  have hinherited := Schema.inherit_ordered ho hinheriting
  obtain rfl := Schema.inheritBases_eq ho.outlined hinheriting
  refine .foldlM_keeping
    (I := fun u => u.Ordered ∧ Schema.Within ⟨bases.containers.map bases.inheriting⟩ u)
    ⟨hinherited, .refl _⟩ (fun u a ha hu => ?_) fun u a _ u' hu hput =>
      ⟨Schema.put_ordered hu.1 hput, hu.2.trans (Schema.put_within hu.1 hput)⟩
  obtain ⟨entry, hentry, rfl⟩ := Schema.mem_completion.1 ha
  rw [← Schema.declare_eq_put]
  refine (u.fails_declare entry.1 entry.2).imp fun fault hmisses container target name hmissing
    hdeclares _ => ?_
  obtain ⟨-, -, hnone⟩ := hmisses _ _ _ hmissing
  obtain ⟨v, base, p, hv, hbase, hp⟩ := h.lookup hwithin ho hdeclares
  rw [hu.2.kept _ _ _ (Schema.lookup_inheriting hv hbase hp)] at hnone
  cases hnone

end Prepared

theorem build_fails (d : SchemaDocument) : FailsBy d.SparesVariants d.build := by
  have hother : ∀ {fault : Fault}, fault.missing? = none → d.SparesVariants fault :=
    sparesVariants_of_none
  rw [build_eq]
  refine .bind ?registered fun skeletons hregistered => .bind ?declared fun plain hdeclared => ?_
  case registered => exact .foldlM fun s _ _ => (s.fails_registerType _ _).imp fun _ => hother
  case declared => exact .foldlM fun s _ _ => (s.fails_declarePlain _ _).imp fun _ => hother
  have hprepared : d.Prepared skeletons plain :=
    ⟨hregistered, run_of_declared hregistered hdeclared⟩
  refine hprepared.fails_bases.bind fun bases hofBases => ?_
  have hbases := Schema.run_of_putAll hprepared.run.ordered hofBases
  refine .bind ?inheriting fun inherited hinheriting => ?_
  case inheriting => exact .foldlM fun s _ _ => (s.fails_inheritBase _).imp fun _ => hother
  refine (hprepared.fails_variants hbases.within hbases.ordered hinheriting).bind fun _ _ => ?_
  exact .bind (.forM fun c _ => (Schema.fails_checkContainer c).imp fun _ => hother) fun _ _ => .ok

/-- What other containers than variants look up is not declared for a base. -/
theorem build_lookups {s : Schema} (h : d.build = .ok s) {entry : String × PropertyDeclaration}
    (hentry : entry ∈ d.computed) (hother : ¬ d.IsVariant entry.1) {c : Container}
    (hc : s.container? entry.1 = some c) {target name : String}
    (hlooks : entry.2.LooksUp c target name) : ¬ d.DeclaresForBase target name := by
  obtain ⟨skeletons, plain, bases, inherited, hsteps⟩ := build_eq_ok_iff.1 h
  intro hdeclares
  have hprepared : d.Prepared skeletons plain := ⟨hsteps.registered, hsteps.plainRun⟩
  have hordered := hsteps.basesRun.ordered
  obtain ⟨v, base, p, hv, hbase, hp⟩ :=
    hprepared.lookup hsteps.basesRun.within hordered hdeclares
  -- the property was made before variants inherited, from what its container looks up then
  have hmade : bases.Makes (.declared entry.1 entry.2) := by
    refine hsteps.basesRun.made _
      (Schema.mem_completion.2 ⟨entry, List.mem_filter.2 ⟨hentry, ?_⟩, rfl⟩)
    rwa [beq_iff_eq, Bool.eq_false_iff, ne_eq, hprepared.isVariant_iff]
  obtain ⟨c', made, hc', hmake, -⟩ := hmade
  have hlooked := (Addition.looksUp_within hsteps.basesWithin hsteps.variantsRun.ordered.outlined
    hc' hc hmake).1 hlooks
  obtain ⟨found, hfound⟩ := Addition.found_of_make hc' hmake hlooked
  have hnamed := hsteps.inheritedOrdered.named
  rw [Schema.inheritBases_eq hordered.outlined hsteps.inheriting] at hnamed
  rw [Schema.lookup_of_inheriting hv hbase hp hnamed] at hfound
  cases hfound

/-- Variants see what is declared for the base of a variant, and no other container does: a
reference or an aggregate of a variant never misses it, and one of another container is never built
over it. -/
theorem build_sees_inherited (d : SchemaDocument) :
    (∀ fault container target name, d.build = .error fault →
      fault.missing? = some (container, target, name) → d.DeclaresForBase target name →
        ¬ d.IsVariant container) ∧
    ∀ s, d.build = .ok s → ∀ entry ∈ d.computed, ¬ d.IsVariant entry.1 →
      ∀ c target name, s.container? entry.1 = some c → entry.2.LooksUp c target name →
        ¬ d.DeclaresForBase target name := by
  refine ⟨fun fault container target name hrefused => ?_, fun s hbuild entry hentry hother c target
    name hc hlooks => build_lookups hbuild hentry hother hc hlooks⟩
  have hfails := d.build_fails
  rw [hrefused] at hfails
  exact hfails.fault container target name

/-- The animals of a keeper, who is kept by each of them. -/
def keptAnimals (type : String) : PropertyDeclaration :=
  { name := "animals", kind := some .dependentReference, type := type, reverse := some "keeper" }

/-- Keepers of animals of a type. The variant of dogs knows their pups. -/
def kennelDocument (type : String) : SchemaDocument where
  resources :=
    [{ name := "Keeper"
       properties := [{ name := "id", kind := some .id, type := "long" }, keptAnimals type] },
      { name := "Animal"
        discriminator := some "species"
        properties :=
          [{ name := "id", kind := some .id, type := "long" },
            { name := "keeper", type := "ref(Keeper)" },
            { name := "parent", type := "ref(Animal)" }]
        variants :=
          [{ name := "Dog"
             properties :=
              [{ name := "pups", kind := some .dependentReference, type := "list<ref(Dog)>",
                 reverse := some "parent" }] }] }]
  objects := []

/-- The keeper and the parent of a dog are declared for animals. -/
theorem kennelDocument_declares (type : String) :
    (kennelDocument type).DeclaresForBase "Dog" "keeper" ∧
      (kennelDocument type).DeclaresForBase "Dog" "parent" :=
  ⟨⟨(_, .resource true), .tail _ (.head _), .head _, _, .tail _ (.head _), rfl, rfl⟩,
    ⟨(_, .resource true), .tail _ (.head _), .head _, _, .tail _ (.tail _ (.head _)), rfl, rfl⟩⟩

/-- Keepers of dogs are refused and are no variant. Keepers of animals are built, with the parents
that dogs have as animals, and their own keepers are not declared for a base of animals. -/
theorem kennels_see_inherited :
    ¬ (kennelDocument "list<ref(Dog)>").IsVariant "Keeper" ∧
      (∃ s, (kennelDocument "list<ref(Animal)>").build = .ok s) ∧
      (kennelDocument "list<ref(Animal)>").DeclaresForBase "Dog" "parent" ∧
      ¬ (kennelDocument "list<ref(Animal)>").DeclaresForBase "Animal" "keeper" := by
  have hrefused : (kennelDocument "list<ref(Dog)>").build = .error
      (Fault.of (.property "Keeper" "animals" (.reverseUnknown "Dog" "keeper"))) := by
    decide +kernel
  have hbuilt : ((kennelDocument "list<ref(Animal)>").build.toOption.any fun s =>
      (s.container? "Keeper").isSome) = true := by
    decide +kernel
  obtain ⟨s, hs, hkeeper⟩ := (Option.any_eq_true _ _).1 hbuilt
  obtain ⟨c, hc⟩ := Option.isSome_iff_exists.1 hkeeper
  have hbuild := toOption_eq_some_iff.1 hs
  have hother : ¬ (kennelDocument "list<ref(Animal)>").IsVariant "Keeper" := by
    simp [IsVariant, kennelDocument, types]
  have hparse : ValueType.parse "list<ref(Animal)>" =
      .ok (.list (.reference (.resource "Animal"))) := by
    decide +kernel
  have htype : (keptAnimals "list<ref(Animal)>").valueType c.name =
      .ok (.list (.reference (.resource "Animal"))) := by
    unfold PropertyDeclaration.valueType
    simp only [keptAnimals, hparse]
  have hlooks : (keptAnimals "list<ref(Animal)>").LooksUp c "Animal" "keeper" :=
    .reverse rfl htype rfl rfl
  refine ⟨(build_sees_inherited _).1 _ _ _ _ hrefused rfl (kennelDocument_declares _).1,
    ⟨s, hbuild⟩, (kennelDocument_declares _).2, ?_⟩
  exact (build_sees_inherited _).2 s hbuild ("Keeper", keptAnimals "list<ref(Animal)>") (.head _)
    hother c "Animal" "keeper" hc hlooks

/-- Keepers of dogs are refused, as dogs have no keeper of their own. -/
theorem dogKeepers_refused :
    ∃ fault, (kennelDocument "list<ref(Dog)>").build = .error fault ∧
      fault.missing? = some ("Keeper", "Dog", "keeper") ∧
      (kennelDocument "list<ref(Dog)>").DeclaresForBase "Dog" "keeper" :=
  ⟨Fault.of (.property "Keeper" "animals" (.reverseUnknown "Dog" "keeper")), by decide +kernel, rfl,
    (kennelDocument_declares _).1⟩

end SchemaDocument

end ResourceQuery
