import ResourceQuery.Proofs.Outcome
import ResourceQuery.Schema.PropertyRules
/-!
# What a declaration is checked for

A declaration that becomes a property names registered types only, is stored with at most one level
of collections, and a dependent reference has its link on the other side (`build_sound`).
-/

namespace ResourceQuery

/-- Every object named in the type is a registered object type, every reference leads to a
registered resource type; map keys are part of the type. -/
def ValueType.Registered (s : Schema) : ValueType → Prop
  | .object name => ∃ c, s.container? name = some c ∧ c.isResource = false
  | .reference (.resource name) => ∃ c, s.container? name = some c ∧ c.isResource = true
  | .list inner | .set inner => inner.Registered s
  | .map key inner => key.Registered s ∧ inner.Registered s
  | .reference .any | .scalar _ | .enum _ | .dynamic => True

/-- The target of the type has a stored single reference of that name, which leads back to the
container or its base. -/
def ValueType.LinksBack (s : Schema) (c : Container) (type : ValueType) (reverse : String) : Prop :=
  ∃ target resource back, type.target? = some (.resource target) ∧
    s.resource target = .ok resource ∧ resource.property? reverse = some back ∧
    back.kind = .reference ∧ back.type.isCollection = false ∧ back.isPersisted = true ∧
    ∃ source, back.type.target? = some (.resource source) ∧
      (source = c.name ∨ c.base? = some source)

/-- What a property of a container has been checked for. -/
structure Property.Sound (s : Schema) (c : Container) (p : Property) : Prop where
  registered : p.type.Registered s
  shallow : p.isPersisted = true → p.type.degree ≤ 1
  stored : ∀ persistence, p.persistence = some persistence → ∀ storage,
    persistence.collection = some storage →
      p.type.degree = 1 ∧ (storage.keyField.isSome = p.type.isMap)
  reversed : ∀ reverse, p.kind = .dependentReference reverse → p.type.LinksBack s c reverse

/-- What an aggregate may be computed over: a reference that is kept on the other side, or else a
collection of things that have properties. -/
def Property.isAggregable (p : Property) (dependent : Bool) : Bool :=
  if dependent then p.isDependentReference
  else p.type.isCollection && (p.isObject || p.kind == .reference)

namespace PropertyDeclaration

variable {d : PropertyDeclaration} {s : Schema} {c : Container} {kind : DeclaredKind}
  {type : ValueType}

theorem refuse_bind {α β : Type} {container : String} {flaw : Fault.PropertyFlaw}
    (f : α → Except Fault β) :
    (d.refuse container flaw >>= f) = .error (Fault.of (.property container d.name flaw)) := rfl

theorem refuse_ne_ok {α : Type} {container : String} {flaw : Fault.PropertyFlaw} {a : α} :
    d.refuse container flaw ≠ .ok a := by
  intro h
  cases h

theorem checkNames_ok {container : String} (h : d.checkNames s container type = .ok ()) :
    type.Registered s := by
  induction type with
  | object name =>
      unfold checkNames at h
      split at h
      · rename_i found hfound
        split at h
        · cases h
        · rename_i hresource
          exact ⟨found, hfound, by simpa using hresource⟩
      · cases h
  | reference target =>
      cases target with
      | any => trivial
      | resource name =>
          unfold checkNames at h
          split at h
          · rename_i hresource
            exact (Option.any_eq_true _ _).1 hresource
          · cases h
  | list inner ih => exact ih h
  | set inner ih => exact ih h
  | map key inner ihKey ihInner =>
      unfold checkNames at h
      by_cases hkey : (!key.isKeyable) = true
      · simp only [hkey, if_true, refuse_bind] at h
        cases h
      · simp only [hkey] at h
        obtain ⟨_, hkeyNames, hinner⟩ := bind_eq_ok_iff.1 h
        exact ⟨ihKey hkeyNames, ihInner hinner⟩
  | scalar _ => trivial
  | enum _ => trivial
  | dynamic => trivial

theorem dependentReference_ok {k : PropertyKind} (h : d.dependentReference s c type = .ok k) :
    ∃ reverse, d.reverse = some reverse ∧ k = .dependentReference reverse ∧
      type.LinksBack s c reverse := by
  unfold dependentReference at h
  split at h
  case h_2 => cases h
  rename_i reverse hreverse
  split at h
  case h_2 => cases h
  rename_i target htarget
  simp only [refuse_bind, ite_error_eq_ok_iff, bind_eq_ok_iff] at h
  obtain ⟨_, resource, hresource, h⟩ := h
  split at h
  case h_2 => cases h
  rename_i back hback
  simp only [ite_error_eq_ok_iff] at h
  obtain ⟨hpoints, hpersisted, heq⟩ := h
  cases heq
  simp only [Bool.not_eq_true', Bool.not_eq_false, Bool.and_eq_true, beq_iff_eq,
    Option.any_eq_true, Bool.or_eq_true] at hpoints hpersisted
  obtain ⟨⟨hkind, hsingle⟩, elsewhere, helsewhere, hsource⟩ := hpoints
  refine ⟨reverse, hreverse, rfl, target, resource, back, htarget, hresource, hback, hkind,
    by simpa using hsingle, hpersisted, ?_⟩
  rcases hsource with rfl | rfl
  · cases hbase : c.base? with
    | none => exact ⟨c.name, by rw [helsewhere, hbase, Option.getD_none], .inl rfl⟩
    | some base => exact ⟨base, by rw [helsewhere, hbase, Option.getD_some], .inr rfl⟩
  · exact ⟨c.name, helsewhere, .inl rfl⟩

theorem collectionStorage_ok {container : String} {storage : StorageDeclaration}
    {collection : CollectionStorage}
    (h : d.collectionStorage container type storage = .ok collection) :
    type.degree = 1 ∧ collection.keyField.isSome = type.isMap := by
  simp only [collectionStorage, refuse_bind, ite_error_eq_ok_iff] at h
  obtain ⟨hdegree, h⟩ := h
  split at h
  case h_2 => cases h
  simp only [ite_error_eq_ok_iff] at h
  obtain ⟨hmap, hplain, heq⟩ := h
  cases heq
  refine ⟨by simpa using hdegree, ?_⟩
  cases hkey : storage.keyField <;> cases hisMap : type.isMap <;> simp_all

theorem persistence_ok {k : PropertyKind} {persistence : Option Persistence}
    (h : d.persistence c k type = .ok persistence) :
    (persistence.isSome = true → type.degree ≤ 1) ∧
      ∀ p, persistence = some p → ∀ storage, p.collection = some storage →
        type.degree = 1 ∧ (storage.keyField.isSome = type.isMap) := by
  simp only [PropertyDeclaration.persistence, refuse_bind] at h
  split at h
  · simp only [ite_error_eq_ok_iff, bind_eq_ok_iff] at h
    obtain ⟨hdegree, collection, hcollection, heq⟩ := h
    cases heq
    refine ⟨fun _ => by omega, ?_⟩
    rintro p ⟨⟩ storage rfl
    cases hstorage : d.storage with
    | none => simp [hstorage, pure, Except.pure] at hcollection
    | some declared =>
        rw [hstorage, Option.mapM_some, map_eq_ok_iff] at hcollection
        obtain ⟨_, hcollection, ⟨⟩⟩ := hcollection
        exact collectionStorage_ok hcollection
  · rw [ite_error_eq_ok_iff] at h
    cases h.2
    exact ⟨by simp, by simp⟩

theorem aggregateOver_eq_ok_iff {dependent : Bool} {k : PropertyKind} :
    d.aggregateOver s c dependent type = .ok k ↔
      ∃ aggregate receiving collection target element source, d.aggregate = some aggregate ∧
        d.nullable = true ∧ type = .scalar receiving ∧
        c.property? aggregate.collection = some collection ∧
        collection.isAggregable dependent = true ∧ collection.target? = some target ∧
        s.container target = .ok element ∧
        d.sourceKind c.name element aggregate.source = .ok source ∧
        d.checkFunction c.name aggregate.function source receiving = .ok () ∧
        k = if dependent then .dependentAggregate aggregate else .aggregate aggregate := by
  constructor
  · intro h
    unfold aggregateOver at h
    split at h
    case h_2 => cases h
    rename_i aggregate haggregate
    simp only [refuse_bind, ite_error_eq_ok_iff] at h
    obtain ⟨hnullable, h⟩ := h
    split at h
    case h_2 => cases h
    rename_i receiving
    split at h
    case h_2 => cases h
    rename_i collection hcollection
    cases htarget : collection.target? with
    | none =>
        cases dependent <;> simp [htarget, ite_error_eq_ok_iff, refuse_ne_ok] at h
    | some target =>
        cases dependent <;>
          simp only [htarget, if_true, Bool.false_eq_true, if_false, ite_error_eq_ok_iff,
            bind_eq_ok_iff] at h ⊢ <;>
          obtain ⟨hfits, element, helement, source, hsource, _, hfunction, heq⟩ := h <;>
          refine ⟨aggregate, receiving, collection, target, element, source, haggregate,
            by simpa using hnullable, rfl, hcollection, ?_, htarget, helement, hsource, hfunction,
            (Except.ok.inj heq).symm⟩ <;>
          simpa [Property.isAggregable, Bool.or_eq_true, Classical.or_iff_not_imp_left] using hfits
  · rintro ⟨aggregate, receiving, collection, target, element, source, haggregate, hnullable, rfl,
      hcollection, hfits, htarget, helement, hsource, hfunction, rfl⟩
    cases dependent with
    | false =>
        obtain ⟨hmany, hobjects⟩ := Bool.and_eq_true_iff.1 hfits
        simp [aggregateOver, haggregate, hnullable, hcollection, hmany, hobjects, htarget, helement,
          hsource, hfunction, ok_bind]
    | true =>
        simp [aggregateOver, haggregate, hnullable, hcollection,
          show collection.isDependentReference = true from hfits, htarget, helement, hsource,
          hfunction, ok_bind]

theorem sourceKind_ok {container name : String} {element : Container} {source : Option ScalarKind}
    (h : d.sourceKind container element (some name) = .ok source) :
    ∃ p kind, element.property? name = some p ∧ p.type = .scalar kind ∧ source = some kind := by
  simp only [sourceKind] at h
  split at h
  · cases h
  · rename_i p hp
    split at h
    · rename_i kind htype
      exact ⟨p, kind, hp, htype, (Except.ok.inj h).symm⟩
    · cases h

/-- A declaration never becomes a discriminator, an identifier is one of no variant, and a
dependent reference has its link. -/
theorem propertyKind_ok {k : PropertyKind} (h : d.propertyKind s c kind type = .ok k) :
    k ≠ .discriminator ∧ (k = .id → c.base? = none ∧ kind = .id) ∧
      ∀ reverse, k = .dependentReference reverse → type.LinksBack s c reverse := by
  cases kind <;> simp only [propertyKind, refuse_bind, ite_error_eq_ok_iff] at h
  case id =>
    obtain ⟨houtside, -, heq⟩ := h
    cases heq
    simp [Container.isVariant] at houtside
    simp [houtside]
  case dependentReference =>
    obtain ⟨reverse, -, rfl, hback⟩ := dependentReference_ok h
    refine ⟨by simp, by simp, ?_⟩
    rintro other ⟨⟩
    exact hback
  case simple =>
    cases h.2
    simp
  case object =>
    split at h
    · cases h
      simp
    · cases h
  case reference =>
    split at h
    · cases h
      simp
    · cases h
  case stamp =>
    split at h
    case h_2 => cases h
    simp only [ite_error_eq_ok_iff] at h
    cases h.2
    simp
  case aggregate | dependentAggregate =>
    obtain ⟨_, _, _, _, _, _, -, -, -, -, -, -, -, -, -, rfl⟩ := aggregateOver_eq_ok_iff.1 h
    simp

theorem build_sound {p : Property} (h : d.build s c kind = .ok p) : p.Sound s c := by
  simp only [build, refuse_bind, throw_bind, ite_error_eq_ok_iff, bind_eq_ok_iff] at h
  obtain ⟨_, type, htype, _, hnames, k, hk, persistence, hpersistence, _, heq⟩ := h
  cases heq
  obtain ⟨hshallow, hstored⟩ := persistence_ok hpersistence
  obtain ⟨-, -, hreversed⟩ := propertyKind_ok hk
  exact ⟨checkNames_ok hnames, hshallow, hstored, hreversed⟩

theorem build_name {p : Property} (h : d.build s c kind = .ok p) : p.name = d.name := by
  simp only [build, refuse_bind, throw_bind, ite_error_eq_ok_iff, bind_eq_ok_iff] at h
  obtain ⟨_, _, -, _, -, _, -, _, -, _, heq⟩ := h
  cases heq
  rfl

/-- Only a declaration of that kind gives an identifier, and none gives a discriminator. -/
theorem build_kind {p : Property} (h : d.build s c kind = .ok p) :
    p.isDiscriminator = false ∧ (p.isId = true → c.base? = none ∧ kind = .id) := by
  simp only [build, refuse_bind, throw_bind, ite_error_eq_ok_iff, bind_eq_ok_iff] at h
  obtain ⟨_, _, -, _, -, k, hk, _, -, _, heq⟩ := h
  cases heq
  obtain ⟨hdiscriminator, hid, -⟩ := propertyKind_ok hk
  refine ⟨by simpa [Property.isDiscriminator] using hdiscriminator, ?_⟩
  intro h
  exact hid (by simpa [Property.isId] using h)

end PropertyDeclaration

end ResourceQuery
