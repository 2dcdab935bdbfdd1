import ResourceQuery.Proofs.Schema.Phases
/-!
# Documents in another order

Resources, objects and properties may be declared in any order, but for aggregates over each other:
a source that is an aggregate itself has to come first. A rearranged document is built if it keeps
to that, and what is built is the same schema (`SchemaDocument.build_rearranged`).
-/

namespace ResourceQuery

/-! ## Rearranging -/

/-- The same variant with its properties in another order. -/
structure VariantDeclaration.Rearranged (v v' : VariantDeclaration) : Prop where
  name : v'.name = v.name
  properties : v'.properties.Perm v.properties

/-- The same type with its properties, and those of its variants, in another order. -/
structure TypeDeclaration.Rearranged (t t' : TypeDeclaration) : Prop where
  name : t'.name = t.name
  persistent : t'.persistent = t.persistent
  discriminator : t'.discriminator = t.discriminator
  properties : t'.properties.Perm t.properties
  variants : List.Forall₂ VariantDeclaration.Rearranged t.variants t'.variants

/-- The same document with its resources, its objects and the properties of all containers in
another order. -/
structure SchemaDocument.Rearranged (d d' : SchemaDocument) : Prop where
  resources : ∃ types, d.resources.Perm types ∧
    List.Forall₂ TypeDeclaration.Rearranged types d'.resources
  objects : ∃ types, d.objects.Perm types ∧
    List.Forall₂ TypeDeclaration.Rearranged types d'.objects

namespace Schema

/-- The source of an aggregate is the property of another declaration. -/
def Uses (s : Schema) (entry later : String × PropertyDeclaration) : Prop :=
  ∃ c aggregate collection, s.container? entry.1 = some c ∧
    entry.2.aggregate = some aggregate ∧ c.property? aggregate.collection = some collection ∧
    collection.target? = some later.1 ∧ aggregate.source = some later.2.name

end Schema

namespace SchemaDocument

/-- The aggregates that are put in one after the other: first those of all containers but variants,
and after these have inherited, those of variants. -/
def aggregates (d : SchemaDocument) (s : Schema) (ofVariants : Bool) :
    List (String × PropertyDeclaration) :=
  d.computed.filter fun entry =>
    !entry.2.isDependentReference && s.isVariant entry.1 == ofVariants

/-- No aggregate stands in front of its source. -/
def SourcesFirst (d : SchemaDocument) (s : Schema) : Prop :=
  ∀ ofVariants, (d.aggregates s ofVariants).Pairwise fun entry later => ¬ s.Uses entry later

end SchemaDocument

/-! ## What is rearranged -/

theorem TypeDeclaration.Rearranged.variantNames {t t' : TypeDeclaration} (h : t.Rearranged t') :
    t'.variants.map VariantDeclaration.name = t.variants.map VariantDeclaration.name := by
  have hvariants := h.variants
  generalize t.variants = variants, t'.variants = variants' at hvariants
  induction hvariants with
  | nil => rfl
  | cons hv _ ih => rw [List.map_cons, List.map_cons, hv.name, ih]

theorem TypeDeclaration.Rearranged.skeletons {t t' : TypeDeclaration} (h : t.Rearranged t')
    (role : ContainerRole) : t'.skeletons role = t.skeletons role := by
  have hempty : t'.variants.isEmpty = t.variants.isEmpty := by
    have := congrArg List.isEmpty h.variantNames
    rwa [List.isEmpty_map, List.isEmpty_map] at this
  have hshape : t'.shape = t.shape := by
    simp only [TypeDeclaration.shape, h.discriminator, h.name, hempty, h.variantNames]
  have hvariants : t'.variants.mapM (fun v => do
      Schema.checkTypeName v.name
      return [(⟨v.name, role, .variant t'.name, .empty⟩ : Container)]) =
      t.variants.mapM fun v => do
        Schema.checkTypeName v.name
        return [(⟨v.name, role, .variant t.name, .empty⟩ : Container)] :=
    mapM_eq_of_forall₂ (h.variants.flip.imp fun v' v hv => by rw [hv.name, h.name])
  rw [TypeDeclaration.skeletons, TypeDeclaration.skeletons, hvariants, hshape, h.name]

namespace SchemaDocument.Rearranged

variable {d d' : SchemaDocument} (h : d.Rearranged d')

include h

theorem types : ∃ types, d.types.Perm types ∧
    List.Forall₂ (fun entry entry' => entry.1.Rearranged entry'.1 ∧ entry'.2 = entry.2) types
      d'.types := by
  obtain ⟨resources, hresources, hrelated⟩ := h.resources
  obtain ⟨objects, hobjects, hrelated'⟩ := h.objects
  refine ⟨_, (hresources.map _).append (hobjects.map _), List.rel_append ?_ ?_⟩
  · rw [List.forall₂_map_left_iff, List.forall₂_map_right_iff]
    exact hrelated.imp fun t t' ht => ⟨ht, by rw [ht.persistent]⟩
  · rw [List.forall₂_map_left_iff, List.forall₂_map_right_iff]
    exact hrelated'.imp fun t t' ht => ⟨ht, rfl⟩

/-- What is made of the properties of each container is rearranged, too. -/
theorem flatMap_properties {β : Type} {f : String × List PropertyDeclaration → List β}
    (hf : ∀ name properties properties', properties'.Perm properties →
      (f (name, properties')).Perm (f (name, properties))) :
    (d'.properties.flatMap f).Perm (d.properties.flatMap f) := by
  obtain ⟨types, hperm, hrelated⟩ := h.types
  have hvariants : ∀ {variants variants' : List VariantDeclaration},
      List.Forall₂ VariantDeclaration.Rearranged variants variants' →
      ((variants'.map fun v => (v.name, v.properties)).flatMap f).Perm
        ((variants.map fun v => (v.name, v.properties)).flatMap f) := by
    intro variants variants' hrelated
    induction hrelated with
    | nil => exact .refl _
    | cons hv _ ih =>
        rw [List.map_cons, List.map_cons, List.flatMap_cons, List.flatMap_cons, hv.name]
        exact (hf _ _ _ hv.properties).append ih
  rw [SchemaDocument.properties, SchemaDocument.properties, List.flatMap_assoc, List.flatMap_assoc]
  refine .trans ?_ (hperm.symm.flatMap_right _)
  clear hperm
  generalize d'.types = types' at hrelated
  induction hrelated with
  | nil => exact .refl _
  | cons hentry _ ih =>
      rw [List.flatMap_cons, List.flatMap_cons, List.flatMap_cons, List.flatMap_cons, hentry.1.name]
      exact ((hf _ _ _ hentry.1.properties).append (hvariants hentry.1.variants)).append ih

theorem computed : d'.computed.Perm d.computed :=
  h.flatMap_properties fun _ _ _ hperm => (hperm.filter _).map _

/-! ## Step by step -/

theorem skeletons {skeletons : Schema}
    (hskeletons : d.types.foldlM (fun s entry => s.registerType entry.1 entry.2) Schema.empty =
      .ok skeletons) :
    ∃ skeletons', d'.types.foldlM (fun s entry => s.registerType entry.1 entry.2) Schema.empty =
      .ok skeletons' ∧ skeletons'.Ordered ∧ skeletons'.SameAs skeletons := by
  obtain ⟨lists, hlists, rfl, hnamed⟩ := Schema.registerTypes_eq_ok_iff.1 hskeletons
  obtain ⟨types, hperm, hrelated⟩ := h.types
  obtain ⟨lists', hlists', hsame⟩ := mapM_ok_perm hlists hperm
  have hmade : d'.types.mapM (fun entry => entry.1.skeletons entry.2) = .ok lists' := by
    rw [← hlists', eq_comm]
    refine mapM_eq_of_forall₂ (hrelated.imp fun entry entry' hentry => ?_)
    rw [hentry.1.skeletons, hentry.2]
  have hcontainers : lists'.flatten.Perm lists.flatten := hsame.symm.flatten
  have hskeletons' := Schema.registerTypes_eq_ok_iff.2
    ⟨lists', hmade, rfl, ((hcontainers.map Container.name).nodup_iff).2 hnamed⟩
  obtain ⟨ho, hempty⟩ := skeletons_ok hskeletons
  obtain ⟨ho', hempty'⟩ := skeletons_ok hskeletons'
  have hordered : Schema.Ordered ⟨lists.flatten⟩ :=
    ⟨ho, fun c hc => by simp [hempty c hc]⟩
  have hordered' : Schema.Ordered ⟨lists'.flatten⟩ :=
    ⟨ho', fun c hc => by simp [hempty' c hc]⟩
  refine ⟨_, hskeletons', hordered', Schema.sameAs_of_perm hordered' hordered
    (hcontainers.map _) fun name c c' hc hc' => ?_⟩
  rw [hempty' c (Schema.container?_some hc).1, hempty c' (Schema.container?_some hc').1]

end SchemaDocument.Rearranged

namespace Schema

/-- Plain properties look up nothing. -/
theorem not_consults_plain {s t : Schema} {properties : List (String × List PropertyDeclaration)}
    {a b : Addition} (ha : a ∈ properties.flatMap s.plainAdditions) : ¬ t.Consults a b := by
  rintro ⟨c, -, hlooks⟩
  obtain ⟨entry, -, ha⟩ := List.mem_flatMap.1 ha
  rcases List.mem_append.1 ha with ha | ha
  · unfold markers at ha
    split at ha
    · obtain rfl := List.mem_singleton.1 ha
      exact hlooks
    · cases ha
  · obtain ⟨d, hd, rfl⟩ := List.mem_map.1 ha
    have hplain : d.isDeferred = false := by simpa using (List.mem_filter.1 hd).2
    rw [PropertyDeclaration.LooksUp.isDeferred hlooks] at hplain
    cases hplain

theorem Makes.build {s : Schema} {container : String} {d : PropertyDeclaration}
    (h : s.Makes (.declared container d)) :
    ∃ c kind p, s.container? c.name = some c ∧ c.name = container ∧
      d.effectiveKind c.name = .ok kind ∧ d.build s c kind = .ok p ∧
      s.lookup container d.name = some p := by
  obtain ⟨c, p, hc, hp, hfound⟩ := h
  obtain rfl : c.name = container := (container?_some hc).2
  obtain ⟨kind, hkind, hbuild⟩ := bind_eq_ok_iff.1 hp
  exact ⟨c, kind, p, hc, rfl, hkind, hbuild, hfound⟩

theorem not_isAggregable {p : Property} (h : p.isAggregate = true) (dependent : Bool) :
    p.isAggregable dependent = false := by
  cases hkind : p.kind with
  | aggregate _ | dependentAggregate _ =>
      cases dependent <;>
        simp [Property.isAggregable, Property.isDependentReference, Property.isObject, hkind]
  | _ =>
      rw [Property.isAggregate, Property.aggregate?, hkind] at h
      cases h

/-- Of aggregates, an aggregate consults those it uses. -/
theorem consults_iff_uses {s : Schema} {entry later : String × PropertyDeclaration}
    (hentry : s.Makes (.declared entry.1 entry.2)) (hlater : s.Makes (.declared later.1 later.2))
    (haggregate : entry.2.isAggregate = true) (hlaterAggregate : later.2.isAggregate = true) :
    s.Consults (.declared entry.1 entry.2) (.declared later.1 later.2) ↔ s.Uses entry later := by
  obtain ⟨holder, d⟩ := entry
  obtain ⟨container, e⟩ := later
  obtain ⟨c, kind, p, hc, rfl, hkind, hbuild, -⟩ := hentry.build
  obtain ⟨c', kind', q, -, -, hkind', hbuild', hfound⟩ := hlater.build
  have hq := PropertyDeclaration.isAggregate_of_build hkind' hlaterAggregate hbuild'
  constructor
  · rintro ⟨other, hother, hlooks⟩
    obtain rfl : c = other := Option.some.inj (hc.symm.trans hother)
    change d.LooksUp c container e.name at hlooks
    generalize hname : e.name = name at hlooks hfound
    cases hlooks with
    | reverse hdependent _ _ _ =>
        rw [PropertyDeclaration.isDependentReference, beq_iff_eq] at hdependent
        simp [PropertyDeclaration.isAggregate, hdependent] at haggregate
    | collection _ hsame =>
        obtain ⟨dependent, _, hover⟩ :=
          PropertyDeclaration.aggregateOver_of_build hkind haggregate hbuild
        obtain ⟨_, _, collection, _, _, _, hdeclared, -, -, hcollection, hfits, -⟩ :=
          PropertyDeclaration.aggregateOver_eq_ok_iff.1 hover
        rw [hsame] at hdeclared
        cases hdeclared
        rw [lookup_of_container? hc, hcollection] at hfound
        cases hfound
        rw [not_isAggregable hq] at hfits
        cases hfits
    | source _ hsame hcollection htarget hsource =>
        exact ⟨c, _, _, hc, hsame, hcollection, htarget, hsource.trans (congrArg some hname.symm)⟩
  · rintro ⟨other, aggregate, collection, hother, hsame, hcollection, htarget, hsource⟩
    obtain rfl : c = other := Option.some.inj (hc.symm.trans hother)
    exact ⟨c, hc, .source haggregate hsame hcollection htarget hsource⟩

/-- Dependent references consult nothing that is computed. -/
theorem not_consults_reference {s : Schema} {entry later : String × PropertyDeclaration}
    (hentry : s.Makes (.declared entry.1 entry.2)) (hlater : s.Makes (.declared later.1 later.2))
    (hdependent : entry.2.isDependentReference = true) (hdeferred : later.2.isDeferred = true) :
    ¬ s.Consults (.declared entry.1 entry.2) (.declared later.1 later.2) := by
  obtain ⟨holder, d⟩ := entry
  obtain ⟨container, e⟩ := later
  obtain ⟨c, kind, p, hc, rfl, hkind, hbuild, -⟩ := hentry.build
  obtain ⟨c', kind', q, -, -, hkind', hbuild', hfound⟩ := hlater.build
  rintro ⟨other, hother, hlooks⟩
  obtain rfl : c = other := Option.some.inj (hc.symm.trans hother)
  obtain ⟨back, hback, hreference⟩ :=
    PropertyDeclaration.reverse_of_build hkind hbuild hdependent hlooks
  obtain rfl : q = back := Option.some.inj (hfound.symm.trans hback)
  have hcomputed := PropertyDeclaration.isComputed_of_build hkind' hdeferred hbuild'
  rw [Property.isComputed, hreference] at hcomputed
  cases hcomputed

/-- Of computed properties, only aggregates are put in the wrong order. -/
theorem pairwise_completion {s : Schema} {pending : List (String × PropertyDeclaration)}
    (hmakes : ∀ a ∈ completion pending, s.Makes a)
    (hdeferred : ∀ entry ∈ pending, entry.2.isDeferred = true) :
    (completion pending).Pairwise (fun a b => ¬ s.Consults a b) ↔
      (pending.filter fun entry => !entry.2.isDependentReference).Pairwise
        fun entry later => ¬ s.Uses entry later := by
  have hmade : ∀ entry ∈ pending, s.Makes (.declared entry.1 entry.2) := by
    intro entry hentry
    refine hmakes _ (List.mem_map.2 ⟨entry, ?_, rfl⟩)
    exact (List.filter_append_perm _ pending).mem_iff.2 hentry
  have hreferences : ∀ entry ∈ pending.filter fun entry => entry.2.isDependentReference,
      ∀ later ∈ pending, ¬ s.Consults (.declared entry.1 entry.2) (.declared later.1 later.2) := by
    intro entry hentry later hlater
    obtain ⟨hentry, hdependent⟩ := List.mem_filter.1 hentry
    exact not_consults_reference (hmade _ hentry) (hmade _ hlater) hdependent (hdeferred _ hlater)
  have haggregate : ∀ entry ∈ pending.filter fun entry => !entry.2.isDependentReference,
      entry ∈ pending ∧ entry.2.isAggregate = true := by
    intro entry hentry
    obtain ⟨hentry, hother⟩ := List.mem_filter.1 hentry
    exact ⟨hentry, PropertyDeclaration.isAggregate_of_isDeferred (hdeferred _ hentry)
      (by simpa using hother)⟩
  have haggregates : (pending.filter fun entry => !entry.2.isDependentReference).Pairwise
      (fun entry later =>
        ¬ s.Consults (.declared entry.1 entry.2) (.declared later.1 later.2)) ↔
      (pending.filter fun entry => !entry.2.isDependentReference).Pairwise
        fun entry later => ¬ s.Uses entry later := by
    refine List.Pairwise.iff_of_mem fun {entry later} hentry hlater => not_congr ?_
    obtain ⟨hentry, hentryAggregate⟩ := haggregate entry hentry
    obtain ⟨hlater, hlaterAggregate⟩ := haggregate later hlater
    exact consults_iff_uses (hmade _ hentry) (hmade _ hlater) hentryAggregate hlaterAggregate
  rw [completion, List.pairwise_map, List.pairwise_append, haggregates]
  refine ⟨fun h => h.2.1, fun h => ⟨?_, h, ?_⟩⟩
  · exact List.pairwise_of_forall_mem_list fun entry hentry later hlater =>
      hreferences entry hentry later (List.mem_of_mem_filter hlater)
  · exact fun entry hentry later hlater =>
      hreferences entry hentry later (List.mem_of_mem_filter hlater)

theorem HasSingleIdentifiers.within {s t : Schema} (hst : s.Within t)
    (ht : t.HasSingleIdentifiers) : s.HasSingleIdentifiers :=
  fun container name other p q hp hq =>
    ht container name other p q (hst.kept _ _ _ hp) (hst.kept _ _ _ hq)

theorem isVariant_eq {s t : Schema} (h : s.headers.Perm t.headers) (hs : IsOutline s.outline)
    (ht : IsOutline t.outline) : s.isVariant = t.isVariant := by
  funext name
  have hheader := header?_eq h hs ht name
  rw [isVariant, isVariant]
  cases hc : s.container? name with
  | none =>
      rw [hc, Option.map_none, eq_comm, Option.map_eq_none_iff] at hheader
      rw [hheader]
  | some c =>
      obtain ⟨d, hd, heq⟩ := container?_of_headers h ht hc
      rw [hd, Option.any_some, Option.any_some, Container.isVariant, Container.isVariant,
        Container.base?, Container.base?, (Container.header_inj heq).2.2]

theorem inherit_ordered {s t : Schema} (hs : s.Ordered)
    (h : s.containers.foldlM inheritBase s = .ok t) : t.Ordered := by
  obtain ⟨houtline, hnamed, -⟩ := inheritAll_ok h hs.outlined hs.named
  exact ⟨houtline ▸ hs.outlined, hnamed⟩

/-- Computed properties in another order. -/
theorem Run.rerun_completion {s s' t final : Schema}
    {pending others : List (String × PropertyDeclaration)} (hrun : s.Run (completion pending) t)
    (hfinal : t.Within final) (ho : final.Ordered) (hids : final.HasSingleIdentifiers)
    (hsame : s'.SameAs s) (hs' : s'.Ordered) (hperm : others.Perm pending)
    (hdeferred : ∀ entry ∈ others, entry.2.isDeferred = true) :
    ((∃ t', s'.putAll (completion others) = .ok t') ↔
        (others.filter fun entry => !entry.2.isDependentReference).Pairwise
          fun entry later => ¬ final.Uses entry later) ∧
      ∀ t', s'.putAll (completion others) = .ok t' → t'.Ordered ∧ t'.SameAs t := by
  have hmade : ∀ a ∈ completion others, t.Makes a := fun a ha =>
    hrun.made a ((completion_perm hperm).mem_iff.1 ha)
  obtain ⟨hends, hend⟩ :=
    hrun.rerun (hids.within hfinal) hsame hs' (completion_perm hperm)
  refine ⟨hends.trans ?_, hend⟩
  rw [← pairwise_completion (fun a ha => (hmade a ha).within hfinal ho.outlined) hdeferred]
  exact List.Pairwise.iff_of_mem fun ha _ =>
    not_congr (consults_within (hmade _ ha) hfinal ho.outlined)

end Schema

namespace SchemaDocument

/-- The steps that a schema is built in, with what each of them leads to. -/
structure Steps (d : SchemaDocument) (skeletons plain bases inherited s : Schema) : Prop where
  registered : d.types.foldlM (fun s entry => s.registerType entry.1 entry.2) Schema.empty =
    .ok skeletons
  declared : d.properties.foldlM (fun (s : Schema) entry => s.declarePlain entry.1 entry.2)
    skeletons = .ok plain
  ofBases : plain.putAll (Schema.completion (d.computed.filter fun entry =>
    plain.isVariant entry.1 == false)) = .ok bases
  inheriting : bases.containers.foldlM Schema.inheritBase bases = .ok inherited
  ofVariants : inherited.putAll (Schema.completion (d.computed.filter fun entry =>
    plain.isVariant entry.1 == true)) = .ok s
  checked : s.containers.forM Schema.checkContainer = .ok ()

/-- Building by runs of additions. -/
theorem build_eq (d : SchemaDocument) : d.build = (do
    let skeletons ←
      d.types.foldlM (fun s entry => s.registerType entry.1 entry.2) Schema.empty
    let plain ← d.properties.foldlM
      (fun (s : Schema) entry => s.declarePlain entry.1 entry.2) skeletons
    let bases ← plain.putAll (Schema.completion (d.computed.filter fun entry =>
      plain.isVariant entry.1 == false))
    let inherited ← bases.containers.foldlM Schema.inheritBase bases
    let complete ← inherited.putAll (Schema.completion (d.computed.filter fun entry =>
      plain.isVariant entry.1 == true))
    complete.containers.forM Schema.checkContainer
    return complete) := by
  have hparts : ∀ plain : Schema, d.computed.partition (fun entry => plain.isVariant entry.1) =
      (d.computed.filter fun entry => plain.isVariant entry.1 == true,
        d.computed.filter fun entry => plain.isVariant entry.1 == false) := by
    simp [List.partition_eq_filter_filter, Function.comp_def]
  simp only [build, hparts, Schema.declareComputed_eq_putAll]

theorem build_eq_ok_iff {d : SchemaDocument} {s : Schema} :
    d.build = .ok s ↔ ∃ skeletons plain bases inherited,
      d.Steps skeletons plain bases inherited s := by
  simp only [build_eq, bind_eq_ok_iff]
  constructor
  · rintro ⟨skeletons, hskeletons, plain, hplain, bases, hbases, inherited, hinherited, complete,
      hcomplete, _, hchecked, heq⟩
    cases heq
    exact ⟨skeletons, plain, bases, inherited, hskeletons, hplain, hbases, hinherited, hcomplete,
      hchecked⟩
  · rintro ⟨skeletons, plain, bases, inherited, hsteps⟩
    exact ⟨skeletons, hsteps.registered, plain, hsteps.declared, bases, hsteps.ofBases, inherited,
      hsteps.inheriting, s, hsteps.ofVariants, (), hsteps.checked, rfl⟩

section

variable {d : SchemaDocument} {skeletons plain : Schema}
  (hregistered : d.types.foldlM (fun s entry => s.registerType entry.1 entry.2) Schema.empty =
    .ok skeletons)

include hregistered

theorem ordered_of_registered : skeletons.Ordered := by
  obtain ⟨ho, hempty⟩ := skeletons_ok hregistered
  exact ⟨ho, fun c hc => by simp [hempty c hc]⟩

theorem run_of_declared
    (hdeclared : d.properties.foldlM (fun (s : Schema) entry => s.declarePlain entry.1 entry.2)
      skeletons = .ok plain) :
    skeletons.Run (d.properties.flatMap skeletons.plainAdditions) plain := by
  have hordered := ordered_of_registered hregistered
  exact Schema.run_of_putAll hordered
    ((Schema.declarePlain_run_eq_ok_iff hordered hordered.outlined (.refl _)).1 hdeclared).2

end

namespace Steps

variable {d : SchemaDocument} {skeletons plain bases inherited s : Schema}
  (h : d.Steps skeletons plain bases inherited s)

include h

theorem skeletonsOrdered : skeletons.Ordered := ordered_of_registered h.registered

theorem plainRun : skeletons.Run (d.properties.flatMap skeletons.plainAdditions) plain :=
  run_of_declared h.registered h.declared

theorem basesRun : plain.Run (Schema.completion (d.computed.filter fun entry =>
    plain.isVariant entry.1 == false)) bases :=
  Schema.run_of_putAll h.plainRun.ordered h.ofBases

theorem inheritedOrdered : inherited.Ordered :=
  Schema.inherit_ordered h.basesRun.ordered h.inheriting

theorem variantsRun : inherited.Run (Schema.completion (d.computed.filter fun entry =>
    plain.isVariant entry.1 == true)) s :=
  Schema.run_of_putAll h.inheritedOrdered h.ofVariants

theorem basesWithin : bases.Within s := by
  refine .trans ?_ h.variantsRun.within
  obtain rfl := Schema.inheritBases_eq h.basesRun.ordered.outlined h.inheriting
  exact Schema.within_of_reaches (.of_eq (Schema.headers_inheriting _).symm)
    bases.reaches_inheriting h.inheritedOrdered

theorem plainWithin : plain.Within s := h.basesRun.within.trans h.basesWithin

theorem isVariant_of_sameAs {plain' : Schema} (ho : plain'.Ordered) (hsame : plain'.SameAs plain) :
    plain'.isVariant = s.isVariant :=
  Schema.isVariant_eq (hsame.headers.trans h.plainWithin.headers) ho.outlined
    h.variantsRun.ordered.outlined

theorem isVariant_eq : plain.isVariant = s.isVariant :=
  h.isVariant_of_sameAs h.plainRun.ordered ⟨.refl _, fun _ _ => rfl⟩

theorem build : d.build = .ok s := build_eq_ok_iff.2 ⟨_, _, _, _, h⟩

end Steps

theorem build_singleIdentifiers {d : SchemaDocument} {s : Schema} (h : d.build = .ok s) :
    s.HasSingleIdentifiers := by
  intro container name other p q hp hq hpid hqid
  obtain ⟨c, hc, hp⟩ := Schema.lookup_eq_some.1 hp
  rw [Schema.lookup_of_container? hc] at hq
  exact build_unique h (Schema.container?_some hc).1 (Schema.property?_some hp).1
    (Schema.property?_some hq).1 (.inl ⟨hpid, hqid⟩)

theorem isDeferred_of_computed {d : SchemaDocument} :
    ∀ entry ∈ d.computed, entry.2.isDeferred = true := by
  intro entry hentry
  obtain ⟨⟨name, properties⟩, -, hmem⟩ := List.mem_flatMap.1 hentry
  obtain ⟨p, hp, rfl⟩ := List.mem_map.1 hmem
  exact (List.mem_filter.1 hp).2

/-- What is put in of a kind of container are dependent references and aggregates. -/
theorem aggregates_of_computed (d : SchemaDocument) (s : Schema) (ofVariants : Bool) :
    ((d.computed.filter fun entry => s.isVariant entry.1 == ofVariants).filter
      fun entry => !entry.2.isDependentReference) = d.aggregates s ofVariants := by
  rw [aggregates, List.filter_filter]

section

variable {d d' : SchemaDocument} {skeletons plain bases inherited s : Schema}
  (h : d.Rearranged d') (hsteps : d.Steps skeletons plain bases inherited s)

include h hsteps

/-- Plain properties in another order. -/
theorem Steps.rearranged_plain {skeletons' : Schema} (hs' : skeletons'.Ordered)
    (hsame : skeletons'.SameAs skeletons) :
    ∃ plain', d'.properties.foldlM (fun (s : Schema) entry => s.declarePlain entry.1 entry.2)
      skeletons' = .ok plain' ∧ plain'.Ordered ∧ plain'.SameAs plain := by
  have hs := hsteps.skeletonsOrdered
  have hperm : (d'.properties.flatMap skeletons'.plainAdditions).Perm
      (d.properties.flatMap skeletons.plainAdditions) := by
    rw [Schema.plainAdditions_eq hsame.headers hs'.outlined hs.outlined]
    exact h.flatMap_properties fun _ _ _ hperm => ((hperm.filter _).map _).append_left _
  have hnames : (d'.properties.map Prod.fst).Perm (d.properties.map Prod.fst) := by
    simpa only [List.map_eq_flatMap] using
      h.flatMap_properties (f := fun entry => [entry.1]) fun _ _ _ _ => .refl _
  have hregistered : ∀ entry ∈ d'.properties, (skeletons'.container? entry.1).isSome = true := by
    intro entry hentry
    obtain ⟨other, hother, heq⟩ := List.mem_map.1 (hnames.mem_iff.1 (List.mem_map_of_mem hentry))
    obtain ⟨c, hc⟩ := Option.isSome_iff_exists.1
      (((Schema.declarePlain_run_eq_ok_iff hs hs.outlined (.refl _)).1 hsteps.declared).1 other
        hother)
    rw [← heq]
    obtain ⟨c', hc', -⟩ := Schema.container?_of_headers hsame.headers.symm hs'.outlined hc
    rw [hc']
    rfl
  have hids := (build_singleIdentifiers hsteps.build).within hsteps.plainWithin
  obtain ⟨hends, hend⟩ := hsteps.plainRun.rerun hids hsame hs' hperm
  obtain ⟨plain', hplain'⟩ := hends.2 (List.pairwise_of_forall_mem_list fun a ha b _ =>
    Schema.not_consults_plain (hperm.mem_iff.1 ha))
  exact ⟨plain', (Schema.declarePlain_run_eq_ok_iff hs' hs'.outlined (.refl _)).2
    ⟨hregistered, hplain'⟩, hend plain' hplain'⟩

/-- Computed properties of one kind of container, in another order. -/
theorem Steps.rearranged_completion {start start' t : Schema} {ofVariants : Bool}
    (hrun : start.Run (Schema.completion (d.computed.filter fun entry =>
      s.isVariant entry.1 == ofVariants)) t) (hfinal : t.Within s)
    (hsame : start'.SameAs start) (hstart' : start'.Ordered) :
    ((∃ t', start'.putAll (Schema.completion (d'.computed.filter fun entry =>
        s.isVariant entry.1 == ofVariants)) = .ok t') ↔
        (d'.aggregates s ofVariants).Pairwise fun entry later => ¬ s.Uses entry later) ∧
      ∀ t', start'.putAll (Schema.completion (d'.computed.filter fun entry =>
        s.isVariant entry.1 == ofVariants)) = .ok t' → t'.Ordered ∧ t'.SameAs t := by
  rw [← aggregates_of_computed]
  exact hrun.rerun_completion hfinal hsteps.variantsRun.ordered
    (build_singleIdentifiers hsteps.build) hsame hstart' (h.computed.filter _)
    fun entry hentry => isDeferred_of_computed entry (List.mem_of_mem_filter hentry)

/-- Once the other containers are complete, inheriting succeeds, and variants are completed if
sources come first. -/
theorem Steps.rearranged_variants {bases' : Schema} (ho : bases'.Ordered)
    (hsame : bases'.SameAs bases) :
    ∃ inherited', bases'.containers.foldlM Schema.inheritBase bases' = .ok inherited' ∧
      ((∃ s', inherited'.putAll (Schema.completion (d'.computed.filter fun entry =>
          s.isVariant entry.1 == true)) = .ok s') ↔
        (d'.aggregates s true).Pairwise fun entry later => ¬ s.Uses entry later) ∧
      ∀ s', inherited'.putAll (Schema.completion (d'.computed.filter fun entry =>
          s.isVariant entry.1 == true)) = .ok s' →
        s'.SameAs s ∧ s'.containers.forM Schema.checkContainer = .ok () := by
  obtain ⟨inherited', hinherited', ho', hsame'⟩ :=
    hsame.inherit hsteps.basesRun.ordered ho hsteps.inheriting hsteps.inheritedOrdered
  have hrun := hsteps.variantsRun
  have hordered := hrun.ordered
  rw [hsteps.isVariant_eq] at hrun
  obtain ⟨hends, hend⟩ := hsteps.rearranged_completion h hrun (.refl s) hsame' ho'
  refine ⟨inherited', hinherited', hends, fun s' hs' => ?_⟩
  obtain ⟨hs'Ordered, hs'Same⟩ := hend s' hs'
  exact ⟨hs'Same, hs'Same.checked hordered hs'Ordered hsteps.checked⟩

end

/-- A rearranged document is built if and only if no aggregate stands in front of its source, and
then the schema is the same. -/
theorem build_rearranged {d d' : SchemaDocument} {s : Schema} (h : d.Rearranged d')
    (hbuild : d.build = .ok s) :
    ((∃ s', d'.build = .ok s') ↔ d'.SourcesFirst s) ∧
      ∀ s', d'.build = .ok s' → s'.SameAs s := by
  obtain ⟨skeletons, plain, bases, inherited, hsteps⟩ := build_eq_ok_iff.1 hbuild
  obtain ⟨skeletons', hskeletons', hskeletonsOrdered, hskeletonsSame⟩ :=
    h.skeletons hsteps.registered
  obtain ⟨plain', hplain', hplainOrdered, hplainSame⟩ :=
    hsteps.rearranged_plain h hskeletonsOrdered hskeletonsSame
  have hvariants := hsteps.isVariant_of_sameAs hplainOrdered hplainSame
  have hrun := hsteps.basesRun
  rw [hsteps.isVariant_eq] at hrun
  obtain ⟨hbasesEnds, hbasesEnd⟩ :=
    hsteps.rearranged_completion h hrun hsteps.basesWithin hplainSame hplainOrdered
  have hend : ∀ s' : Schema, d'.build = .ok s' → d'.SourcesFirst s ∧ s'.SameAs s := by
    intro s' hs'
    obtain ⟨_, _, bases', _, hsteps'⟩ := build_eq_ok_iff.1 hs'
    obtain rfl := Except.ok.inj (hskeletons'.symm.trans hsteps'.registered)
    obtain rfl := Except.ok.inj (hplain'.symm.trans hsteps'.declared)
    have hbases' := hsteps'.ofBases
    have hcomplete' := hsteps'.ofVariants
    rw [hvariants] at hbases' hcomplete'
    obtain ⟨hordered, hsame⟩ := hbasesEnd bases' hbases'
    obtain ⟨_, hinherited', hends, hend⟩ := hsteps.rearranged_variants h hordered hsame
    obtain rfl := Except.ok.inj (hinherited'.symm.trans hsteps'.inheriting)
    refine ⟨fun ofVariants => ?_, (hend s' hcomplete').1⟩
    cases ofVariants with
    | false => exact hbasesEnds.1 ⟨bases', hbases'⟩
    | true => exact hends.1 ⟨s', hcomplete'⟩
  refine ⟨⟨fun ⟨s', hs'⟩ => (hend s' hs').1, fun hfirst => ?_⟩, fun s' hs' => (hend s' hs').2⟩
  obtain ⟨bases', hbases'⟩ := hbasesEnds.2 (hfirst false)
  obtain ⟨hordered, hsame⟩ := hbasesEnd bases' hbases'
  obtain ⟨inherited', hinherited', hends, hend⟩ := hsteps.rearranged_variants h hordered hsame
  obtain ⟨s', hs'⟩ := hends.2 (hfirst true)
  rw [← hvariants] at hbases' hs'
  refine ⟨s', Steps.build ⟨hskeletons', hplain', hbases', hinherited', hs', ?_⟩⟩
  rw [hvariants] at hs'
  exact (hend s' hs').2

/-! ### A tree of nodes -/

/-- Nodes that refer to their parents. -/
def nodeDocument (properties : List PropertyDeclaration) : SchemaDocument where
  resources :=
    [{ name := "Node"
       properties :=
        [{ name := "id", kind := some .id, type := "long" },
          { name := "parent", type := "ref(Node)" },
          { name := "children", kind := some .dependentReference, type := "list<ref(Node)>",
            reverse := some "parent" }] ++ properties }]
  objects := []

/-- How many children a node has. -/
def nodeSize : PropertyDeclaration :=
  { name := "size", kind := some .dependentAggregate, type := "long",
    aggregate := some { function := .count, collection := "children", source := none } }

/-- How many children the children of a node have. -/
def nodeTotal : PropertyDeclaration :=
  { name := "total", kind := some .dependentAggregate, type := "long",
    aggregate := some { function := .sum, collection := "children", source := some "size" } }

def nodeLabel : PropertyDeclaration :=
  { name := "label", type := "string" }

theorem nodeDocument_rearranged {properties properties' : List PropertyDeclaration}
    (h : properties'.Perm properties) :
    (nodeDocument properties).Rearranged (nodeDocument properties') where
  resources := ⟨_, .refl _, .cons ⟨rfl, rfl, rfl, h.append_left _, .nil⟩ .nil⟩
  objects := ⟨_, .refl _, .nil⟩

/-- A label in front of the aggregates, instead of behind them, makes no difference. -/
theorem nodeLabel_rearranged :
    (nodeDocument [nodeSize, nodeTotal, nodeLabel]).Rearranged
        (nodeDocument [nodeLabel, nodeSize, nodeTotal]) ∧
      ∃ s s', (nodeDocument [nodeSize, nodeTotal, nodeLabel]).build = .ok s ∧
        (nodeDocument [nodeLabel, nodeSize, nodeTotal]).build = .ok s' ∧ s'.SameAs s ∧
          (nodeDocument [nodeLabel, nodeSize, nodeTotal]).SourcesFirst s := by
  have hperm : [nodeLabel, nodeSize, nodeTotal].Perm [nodeSize, nodeTotal, nodeLabel] :=
    (List.perm_append_singleton nodeLabel [nodeSize, nodeTotal]).symm
  have hmoved := nodeDocument_rearranged hperm
  obtain ⟨s, hs⟩ : ∃ s, (nodeDocument [nodeSize, nodeTotal, nodeLabel]).build = .ok s :=
    isSome_toOption_iff.1 (by decide +kernel)
  obtain ⟨s', hs'⟩ : ∃ s', (nodeDocument [nodeLabel, nodeSize, nodeTotal]).build = .ok s' :=
    isSome_toOption_iff.1 (by decide +kernel)
  obtain ⟨hbuilt, hsame⟩ := build_rearranged hmoved hs
  exact ⟨hmoved, s, s', hs, hs', hsame s' hs', hbuilt.1 ⟨s', hs'⟩⟩

/-- The total in front of the sizes that it adds up makes one: the sizes are not known yet. -/
theorem nodeTotal_rearranged :
    (nodeDocument [nodeSize, nodeTotal]).Rearranged (nodeDocument [nodeTotal, nodeSize]) ∧
      (∃ s, (nodeDocument [nodeSize, nodeTotal]).build = .ok s) ∧
      ¬ ∃ s, (nodeDocument [nodeTotal, nodeSize]).build = .ok s := by
  refine ⟨nodeDocument_rearranged (.swap _ _ _), isSome_toOption_iff.1 (by decide +kernel), ?_⟩
  rw [← isSome_toOption_iff]
  decide +kernel

end SchemaDocument

end ResourceQuery
