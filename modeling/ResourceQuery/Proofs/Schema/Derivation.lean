import ResourceQuery.Proofs.Path.Steps
import ResourceQuery.Proofs.Schema.Everywhere
import ResourceQuery.Filter.Basic
import ResourceQuery.SortOrder
/-!
# What is computed from stored data

A property of a built schema is stored, or it is computed from others that are in turn
(`SchemaDocument.build_derived`). A filter or an order asks the store for such properties only, but
for those of resources that the store does not keep (`Schema.derived_of_accepts`).
-/

namespace ResourceQuery

/-- The store can tell the property: it is stored, or the reference back to it is, or it is an
aggregate over properties that the store can tell. Some properties may be given. -/
inductive Property.Derived (s : Schema) (given : Property → Prop) : Container → Property → Prop
  | given {c : Container} {p : Property} (h : given p) : Derived s given c p
  | stored {c : Container} {p : Property} (h : p.isPersisted = true) : Derived s given c p
  | linked {c : Container} {p : Property} {reverse : String}
    (hkind : p.kind = .dependentReference reverse) (hlink : p.type.LinksBack s c reverse) :
    Derived s given c p
  | counted {c : Container} {p collection : Property} {aggregate : Aggregate}
    (hkind : p.aggregate? = some aggregate)
    (hcollection : c.property? aggregate.collection = some collection)
    (hsource : aggregate.source = none) (hderived : Derived s given c collection) :
    Derived s given c p
  | summarized {c element : Container} {p collection source : Property} {aggregate : Aggregate}
    {target name : String} (hkind : p.aggregate? = some aggregate)
    (hcollection : c.property? aggregate.collection = some collection)
    (hsource : aggregate.source = some name) (htarget : collection.target? = some target)
    (helement : s.container? target = some element)
    (hproperty : element.property? name = some source)
    (hderived : Derived s given c collection) (hderivedSource : Derived s given element source) :
    Derived s given c p

namespace Property

/-- Neither stored nor computed. -/
def IsTransient (p : Property) : Prop := p.isPersisted = false ∧ p.isComputed = false

variable {s t : Schema} {given : Property → Prop} {c c' : Container} {p : Property}

theorem Derived.grown (h : s.Reaches t) (ht : t.Ordered) (hc' : c' ∈ t.containers)
    (hc : c.Grown c') (hp : p.Derived s given c) : p.Derived t given c' := by
  induction hp generalizing c' with
  | given hgiven => exact .given hgiven
  | stored hstored => exact .stored hstored
  | linked hkind hlink => exact .linked hkind (h.linksBack ht hc hlink)
  | counted hkind hcollection hsource _ ih =>
      exact .counted hkind (Schema.property?_of_kept (ht.named _ hc') hc.kept hcollection) hsource
        (ih hc' hc)
  | summarized hkind hcollection hsource htarget helement hproperty _ _ ih ihSource =>
      obtain ⟨element', helement', helementGrown⟩ := h.container? ht helement
      have hmem := (Schema.container?_some helement').1
      exact .summarized hkind (Schema.property?_of_kept (ht.named _ hc') hc.kept hcollection)
        hsource
        htarget helement' (Schema.property?_of_kept (ht.named _ hmem) helementGrown.kept hproperty)
        (ih hc' hc) (ihSource hmem helementGrown)

/-- What a base derives, its variants derive from what they have taken over. -/
theorem Derived.inherited {b : Container} (hnamed : (c.properties.map Property.name).Nodup)
    (hbase : c.base? = some b.name) (hnone : b.base? = none)
    (hkept : ∀ q ∈ b.properties, q ∈ c.properties) (hp : p.Derived s given b) :
    p.Derived s given c := by
  induction hp with
  | given hgiven => exact .given hgiven
  | stored hstored => exact .stored hstored
  | linked hkind hlink => exact .linked hkind (Schema.linksBack_ofBase hnone hbase hlink)
  | counted hkind hcollection hsource _ ih =>
      exact .counted hkind (Schema.property?_of_kept hnamed hkept hcollection) hsource
        (ih hbase hnone hkept)
  | summarized hkind hcollection hsource htarget helement hproperty _ hderivedSource ih _ =>
      exact .summarized hkind (Schema.property?_of_kept hnamed hkept hcollection) hsource htarget
        helement hproperty (ih hbase hnone hkept) hderivedSource

end Property

namespace PropertyDeclaration

variable {d : PropertyDeclaration} {s : Schema} {c : Container} {kind : DeclaredKind}

/-- An aggregate of a schema whose properties are derived is derived. -/
theorem derived_of_aggregateOver {dependent : Bool} {type : ValueType} {p : Property}
    (hs : s.Everywhere fun s c p => p.Derived s Property.IsTransient c) (hc : c ∈ s.containers)
    (h : d.aggregateOver s c dependent type = .ok p.kind) :
    p.Derived s Property.IsTransient c := by
  obtain ⟨aggregate, _, collection, target, element, source, -, -, -, hcollection, -, htarget,
    helement, hsource, -, heq⟩ := aggregateOver_eq_ok_iff.1 h
  have hkind : p.aggregate? = some aggregate := by
    rw [Property.aggregate?, heq]
    cases dependent <;> rfl
  have hderived := hs c hc collection (Schema.property?_some hcollection).1
  cases hname : aggregate.source with
  | none => exact .counted hkind hcollection hname hderived
  | some name =>
      rw [hname] at hsource
      obtain ⟨r, _, hr, -, -⟩ := sourceKind_ok hsource
      exact .summarized hkind hcollection hname htarget (Schema.container_eq_ok_iff.1 helement) hr
        hderived (hs element (Schema.container_ok helement).1 r (Schema.property?_some hr).1)

/-- Only dependent references and aggregates are computed. -/
theorem propertyKind_computed {type : ValueType} {k : PropertyKind}
    (h : d.propertyKind s c kind type = .ok k) (hcomputed : k.isComputed = true) :
    (∃ reverse, k = .dependentReference reverse) ∨
      ∃ dependent, d.aggregateOver s c dependent type = .ok k := by
  cases kind <;> simp only [propertyKind, refuse_bind, ite_error_eq_ok_iff] at h
  case dependentReference =>
    obtain ⟨reverse, -, rfl, -⟩ := dependentReference_ok h
    exact .inl ⟨reverse, rfl⟩
  case aggregate => exact .inr ⟨false, h⟩
  case dependentAggregate => exact .inr ⟨true, h⟩
  case id =>
    cases h.2.2
    cases hcomputed
  case simple =>
    cases h.2
    cases hcomputed
  case object | reference =>
    split at h
    · cases h
      cases hcomputed
    · cases h
  case stamp =>
    split at h
    case h_2 => cases h
    simp only [ite_error_eq_ok_iff] at h
    cases h.2
    cases hcomputed

theorem derived_of_build {p : Property}
    (hs : s.Everywhere fun s c p => p.Derived s Property.IsTransient c) (hc : c ∈ s.containers)
    (h : d.build s c kind = .ok p) : p.Derived s Property.IsTransient c := by
  have hlink := (build_sound h).reversed
  simp only [build, refuse_bind, throw_bind, ite_error_eq_ok_iff, bind_eq_ok_iff] at h
  obtain ⟨_, type, -, _, -, k, hk, persistence, -, -, heq⟩ := h
  cases heq
  cases hcomputed : k.isComputed with
  | true =>
      rcases propertyKind_computed hk hcomputed with ⟨reverse, rfl⟩ | ⟨dependent, haggregate⟩
      · exact .linked rfl (hlink reverse rfl)
      · exact derived_of_aggregateOver hs hc haggregate
  | false =>
      cases persistence with
      | some _ => exact .stored rfl
      | none => exact .given ⟨rfl, hcomputed⟩

end PropertyDeclaration

/-- Every property of a built schema is derived from stored and from transient ones. -/
theorem SchemaDocument.build_derived {d : SchemaDocument} {s : Schema} (h : d.build = .ok s) :
    s.Everywhere fun s c p => p.Derived s Property.IsTransient c := by
  refine build_everywhere ?_ h
  constructor
  case grown => exact fun hreaches ht _ hc' hgrown hp => hp.grown hreaches ht hc' hgrown
  case declared =>
    exact fun _ hs hc hbuild => PropertyDeclaration.derived_of_build hs hc hbuild
  case marking =>
    intro s c name variants _ _
    cases hpersistence : (Schema.discriminatorOf c name variants).persistence with
    | some _ => exact .stored (by rw [Property.isPersisted, hpersistence, Option.isSome_some])
    | none => exact .given ⟨by rw [Property.isPersisted, hpersistence, Option.isSome_none], rfl⟩
  case inherited =>
    exact fun ho _ hc hbase hnone hkept _ hp => hp.inherited (ho.named _ hc) hbase hnone hkept

namespace Schema

/-- A condition on the path is added to a filter without a base path over the resource type, or an
order of its records sorts by the path. -/
def Accepts (s : Schema) (resourceType path : String) : Prop :=
  (∃ f number options test operands f', f.resourceType = resourceType ∧ f.scope = resourceType ∧
    f.basePath = none ∧ Filter.addCondition s f number path options test operands = .ok f') ∨
  ∃ o direction transform byId o', o.resourceType = resourceType ∧
    SortOrder.add s o direction path transform byId = .ok o'

theorem isEvaluable_of_check {s : Schema} {path : Path} (h : path.checkEvaluable s = .ok ())
    {step : PathStep} (hstep : step ∈ path.steps) : Path.isEvaluable s step = true := by
  unfold Path.checkEvaluable at h
  split at h
  · cases h
  · rename_i hnone
    simpa using List.find?_eq_none.1 hnone step hstep

theorem Accepts.evaluable {s : Schema} {resourceType path : String}
    (h : s.Accepts resourceType path) :
    ∃ resolved, Path.resolve s resourceType path = .ok resolved ∧
      resolved.checkEvaluable s = .ok () := by
  rcases h with ⟨f, _, _, _, _, _, -, rfl, -, h⟩ | ⟨o, _, _, _, _, rfl, h⟩
  · simp only [Filter.addCondition, Filter.makeCondition, bind_eq_ok_iff] at h
    obtain ⟨_, -, _, ⟨_, -, resolved, hresolved, _, hevaluable, -⟩, -⟩ := h
    exact ⟨resolved, hresolved, hevaluable⟩
  · simp only [SortOrder.add, bind_eq_ok_iff] at h
    obtain ⟨resolved, hresolved, _, hevaluable, -⟩ := h
    exact ⟨resolved, hresolved, hevaluable⟩

/-- What is accepted for a resource type can be told by the store, as far as its data are met on
the way: properties are stored or computed, and what they are computed over is in turn or is
transient. -/
theorem derived_of_accepts {d : SchemaDocument} {s : Schema} {resourceType path : String}
    (hbuild : d.build = .ok s) (h : s.Accepts resourceType path) :
    ∃ resolved, Path.resolve s resourceType path = .ok resolved ∧
      ∀ container p, .property container p ∈ resolved.steps →
        s.holdsPersistentData container = true →
          (p.isPersisted = true ∨ p.isComputed = true) ∧
            ∃ c, s.container? container = some c ∧ p.Derived s Property.IsTransient c := by
  obtain ⟨resolved, hresolved, hevaluable⟩ := h.evaluable
  refine ⟨resolved, hresolved, fun container p hstep hpersistent => ⟨?_, ?_⟩⟩
  · have hok := isEvaluable_of_check hevaluable hstep
    simpa [Path.isEvaluable, hpersistent] using hok
  · obtain ⟨holder, hholder, hproperty⟩ := Path.holder_of_resolve hresolved hstep
    exact ⟨holder, hholder, SchemaDocument.build_derived hbuild holder
      (container?_some hholder).1 p (property?_some hproperty).1⟩

/-- Keepers with their animals, and with a report that is not kept. -/
def keeperDocument : SchemaDocument where
  resources :=
    [{ name := "Keeper"
       properties :=
        [{ name := "id", kind := some .id, type := "long" },
          { name := "animals", kind := some .dependentReference, type := "list<ref(Animal)>",
            reverse := some "keeper" },
          { name := "animal_count", kind := some .dependentAggregate, type := "long",
            aggregate := some { function := .count, collection := "animals", source := none } },
          { name := "report", type := "ref(Report)" }] },
      { name := "Animal"
        properties :=
          [{ name := "id", kind := some .id, type := "long" },
            { name := "keeper", type := "ref(Keeper)" }] },
      { name := "Report", persistent := false
        properties := [{ name := "title", type := "string" }] }]
  objects := []

def animalCount : Property :=
  { name := "animal_count"
    kind := .dependentAggregate { function := .count, collection := "animals", source := none }
    type := .scalar (.whole .long), settable := false }

def reportTitle : Property :=
  { name := "title", kind := .simple, type := .string, settable := true }

def keeperSchema : Schema :=
  let report : Property :=
    { name := "report", kind := .reference, type := .reference (.resource "Report"),
      settable := true, persistence := some ⟨"report", none⟩ }
  let animals : Property :=
    { name := "animals", kind := .dependentReference "keeper",
      type := .list (.reference (.resource "Animal")), settable := false }
  let keeper : Property :=
    { name := "keeper", kind := .reference, type := .reference (.resource "Keeper"),
      settable := true, persistence := some ⟨"keeper", none⟩ }
  ⟨[⟨"Keeper", .resource true, .plain, [identifierProperty, report, animals, animalCount]⟩,
    ⟨"Animal", .resource true, .plain, [identifierProperty, keeper]⟩,
    ⟨"Report", .resource false, .plain, [reportTitle]⟩]⟩

theorem keeperDocument_build : keeperDocument.build = .ok keeperSchema :=
  toOption_eq_some_iff.1 (by decide +kernel)

theorem keeperSchema_accepts {path : String}
    (h : (SortOrder.add keeperSchema ⟨"Keeper", [], []⟩ .desc path none false).toOption.isSome) :
    keeperSchema.Accepts "Keeper" path := by
  obtain ⟨o, ho⟩ := isSome_toOption_iff.1 h
  exact .inr ⟨_, _, _, _, o, rfl, ho⟩

/-- Keepers are sorted by how many animals they have, which are counted by what is stored. -/
theorem animalCount_derived :
    keeperDocument.build = .ok keeperSchema ∧ keeperSchema.Accepts "Keeper" "animal_count" ∧
      ∃ c, keeperSchema.container? "Keeper" = some c ∧
        animalCount.Derived keeperSchema Property.IsTransient c := by
  have haccepts : keeperSchema.Accepts "Keeper" "animal_count" :=
    keeperSchema_accepts (by decide +kernel)
  refine ⟨keeperDocument_build, haccepts, ?_⟩
  obtain ⟨resolved, hresolved, hderived⟩ := derived_of_accepts keeperDocument_build haccepts
  have hsteps : Path.resolve keeperSchema "Keeper" "animal_count" =
      .ok ⟨"animal_count", "Keeper", [.property "Keeper" animalCount]⟩ :=
    toOption_eq_some_iff.1 (by decide +kernel)
  rw [hsteps] at hresolved
  cases hresolved
  exact (hderived "Keeper" animalCount (List.mem_singleton.2 rfl) (by decide +kernel)).2

/-- The title of a report is not kept, and still keepers are sorted by it. -/
theorem reportTitle_not_derived :
    keeperDocument.build = .ok keeperSchema ∧
      (∃ c, keeperSchema.resource "Keeper" = .ok c ∧ c.isPersistent = true) ∧
      keeperSchema.Accepts "Keeper" "report.title" ∧
      ∃ resolved c, Path.resolve keeperSchema "Keeper" "report.title" = .ok resolved ∧
        .property c.name reportTitle ∈ resolved.steps ∧
        keeperSchema.container? c.name = some c ∧
        ¬ reportTitle.Derived keeperSchema (fun _ => False) c := by
  have hresolved : ((Path.resolve keeperSchema "Keeper" "report.title").toOption.any fun resolved =>
      resolved.steps.contains (.property "Report" reportTitle)) = true := by
    decide +kernel
  obtain ⟨resolved, hresolved, hstep⟩ := (Option.any_eq_true _ _).1 hresolved
  refine ⟨keeperDocument_build, ⟨_, rfl, rfl⟩, keeperSchema_accepts (by decide +kernel), resolved,
    ⟨"Report", .resource false, .plain, [reportTitle]⟩, toOption_eq_some_iff.1 hresolved,
    List.contains_iff_mem.1 hstep, by decide +kernel, ?_⟩
  intro h
  cases h with
  | given h => exact h
  | stored h => cases h
  | linked h _ => cases h
  | counted h _ _ _ => cases h
  | summarized h _ _ _ _ _ _ _ => cases h

end Schema

end ResourceQuery
