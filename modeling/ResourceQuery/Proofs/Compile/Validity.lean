import ResourceQuery.Proofs.Compile.Filter
import ResourceQuery.Proofs.Schema.Everywhere
/-!
# Valid conditions

A condition of a filter is about a property that the store can tell. Its test fits the values that
are compared, and its operands are such values. This is said of the condition itself, whatever it
was made of (`Condition.valid_of_makeCondition`).
-/

namespace ResourceQuery

/-! ## Types that are compared -/

namespace ValueType

/-- The keys of maps are keyable. -/
def Keyed : ValueType → Prop
  | list inner | set inner => inner.Keyed
  | map key inner => key.isKeyable = true ∧ inner.Keyed
  | _ => True

theorem leaf_leaf (type : ValueType) : type.leaf.leaf = type.leaf := by
  induction type with
  | list inner ih | set inner ih => exact ih
  | map key inner _ ih => exact ih
  | _ => rfl

theorem leaf_of_isKeyable {type : ValueType} (h : type.isKeyable = true) : type.leaf = type := by
  cases type with
  | scalar _ | enum _ | reference _ => rfl
  | _ => cases h

theorem Keyed.isKeyable {type key : ValueType} (h : type.Keyed) (hkey : type.keyType? = some key) :
    key.isKeyable = true := by
  induction type with
  | list inner ih | set inner ih => exact ih h hkey
  | map outer inner _ ih =>
      rw [keyType?] at hkey
      cases hinner : inner.keyType? with
      | none =>
          rw [hinner] at hkey
          cases hkey
          exact h.1
      | some found =>
          rw [hinner] at hkey
          cases hkey
          exact ih h.2 hinner
  | _ => cases hkey

end ValueType

namespace PropertyDeclaration

variable {d : PropertyDeclaration} {s : Schema} {c : Container} {kind : DeclaredKind}

theorem keyed_of_checkNames {container : String} {type : ValueType}
    (h : d.checkNames s container type = .ok ()) : type.Keyed := by
  induction type with
  | list inner ih | set inner ih => exact ih h
  | map key inner _ ih =>
      unfold checkNames at h
      simp only [refuse_bind, ite_error_eq_ok_iff, bind_eq_ok_iff] at h
      obtain ⟨hkey, _, -, hinner⟩ := h
      exact ⟨by simpa using hkey, ih hinner⟩
  | _ => trivial

theorem keyed_of_build {p : Property} (h : d.build s c kind = .ok p) :
    p.type.Keyed ∧ (p.isId = true → p.type.isKeyable = true) := by
  have hid := (build_kind h).2
  simp only [build, refuse_bind, throw_bind, ite_error_eq_ok_iff, bind_eq_ok_iff] at h
  obtain ⟨_, type, -, _, hnames, k, hk, _, -, _, heq⟩ := h
  cases heq
  refine ⟨keyed_of_checkNames hnames, fun hisId => ?_⟩
  obtain ⟨-, rfl⟩ := hid hisId
  simp only [propertyKind, refuse_bind, ite_error_eq_ok_iff] at hk
  simpa using hk.2.1

end PropertyDeclaration

/-- In a built schema the keys of maps are keyable, and so are identifiers. -/
theorem SchemaDocument.build_keyed {d : SchemaDocument} {s : Schema} (h : d.build = .ok s) :
    s.Everywhere fun _ _ p => p.type.Keyed ∧ (p.isId = true → p.type.isKeyable = true) := by
  refine build_everywhere ?_ h
  constructor
  case grown => exact fun _ _ _ _ _ hp => hp
  case declared => exact fun _ _ _ hbuild => PropertyDeclaration.keyed_of_build hbuild
  case marking =>
    exact fun _ _ => ⟨trivial, fun hid => by simp [Schema.discriminatorOf, Property.isId] at hid⟩
  case inherited => exact fun _ _ _ _ _ _ _ hp => hp

/-- The type behind a property that a condition looks at: of its values, of the keys of a map or of
the identifiers that references hold. -/
inductive ValueType.Holds (s : Schema) (type : ValueType) : OperandKind → ValueType → Prop
  | value : Holds s type .value type.leaf
  | key {key : ValueType} (h : type.keyType? = some key) : Holds s type .key key
  | id {target : String} {resource : Container} {identifier : Property}
    (htarget : type.target? = some (.resource target)) (hresource : s.resource target = .ok resource)
    (hidentifier : resource.identifier? = some identifier) : Holds s type .id identifier.type

/-- The type that a condition compares, behind its transform. -/
inductive ValueType.Compared (s : Schema) (type : ValueType) (options : ConditionOptions) :
    ValueType → Prop
  | plain {held : ValueType} (h : Holds s type options.operandKind held)
    (hnone : options.transform = none) : Compared s type options held
  | transformed {held : ValueType} {t : Transform} (h : Holds s type options.operandKind held)
    (hsome : options.transform = some t) (happlies : held = .string) :
    Compared s type options t.resultType

theorem Filter.referencedId_ok {s : Schema} {path : String} {type held : ValueType}
    (h : referencedId s path type = .ok held) : type.Holds s .id held := by
  unfold referencedId at h
  split at h
  · rename_i target htarget
    obtain ⟨resource, hresource, h⟩ := bind_eq_ok_iff.1 h
    split at h
    · rename_i identifier hidentifier
      cases h
      exact .id htarget hresource hidentifier
    · cases h
  · cases h

theorem Filter.testedType_ok {s : Schema} {path : String} {type tested : ValueType}
    {options : ConditionOptions} (h : testedType s path type options = .ok tested) :
    type.Compared s options tested := by
  unfold testedType at h
  extract_lets transformed at h
  have htransformed : ∀ held, type.Holds s options.operandKind held →
      transformed held = .ok tested → type.Compared s options tested := by
    intro held hheld h
    simp only [transformed] at h
    split at h
    · rename_i hnone
      cases h
      exact .plain hheld hnone
    · rename_i t hsome
      split at h
      · rename_i happlies
        cases h
        exact .transformed hheld hsome (by simpa [Transform.appliesTo] using happlies)
      · cases h
  split at h
  · rename_i hkind
    exact htransformed _ (hkind ▸ .value) h
  · rename_i hkind
    split at h
    · rename_i key hkey
      exact htransformed _ (hkind ▸ .key hkey) h
    · cases h
  · rename_i hkind
    obtain ⟨held, hheld, h⟩ := bind_eq_ok_iff.1 h
    exact htransformed held (hkind ▸ referencedId_ok hheld) h

section

variable {s : Schema} {type : ValueType} (htype : type.Keyed)
  (hidentifiers : ∀ target resource identifier, s.resource target = .ok resource →
    resource.identifier? = some identifier → identifier.type.isKeyable = true)

include htype hidentifiers

theorem ValueType.Holds.leaf_eq {kind : OperandKind} {held : ValueType}
    (h : type.Holds s kind held) : held.leaf = held := by
  cases h with
  | value => exact type.leaf_leaf
  | key hkey => exact leaf_of_isKeyable (htype.isKeyable hkey)
  | id _ hresource hidentifier => exact leaf_of_isKeyable (hidentifiers _ _ _ hresource hidentifier)

/-- What is compared is no collection. -/
theorem ValueType.Compared.leaf_eq {options : ConditionOptions} {tested : ValueType}
    (h : type.Compared s options tested) : tested.leaf = tested := by
  cases h with
  | plain hholds _ => exact hholds.leaf_eq htype hidentifiers
  | @transformed _ t _ _ _ => cases t <;> rfl

end

/-! ## Tests that fit -/

/-- The test can be applied to values of the type. -/
structure Test.Fits (test : Test) (tested : ValueType) : Prop where
  object : ∀ name, tested = .object name → test.isPresence = true
  dynamic : tested = .dynamic → test.isPresence = true
  reference : ∀ target, tested = .reference target →
    test.isPresence = true ∨ test.isEquality = true
  textual : test.isTextual = true → tested = .string
  ordering : test.isComparison = true → tested ≠ .scalar .boolean

theorem Filter.fits_of_inapplicable? {test : Test} {tested : ValueType}
    (hleaf : tested.leaf = tested) (h : inapplicable? test tested = none) : test.Fits tested := by
  have hsingle : tested.degree = 0 := by rw [← hleaf, tested.degree_leaf]
  unfold inapplicable? at h
  constructor
  case object =>
    rintro name rfl
    by_contra hpresence
    simp [hpresence] at h
  case dynamic =>
    rintro rfl
    by_contra hpresence
    simp [hpresence] at h
  case reference =>
    rintro target rfl
    by_contra hneither
    rw [not_or] at hneither
    simp [hneither.1, hneither.2] at h
  case textual =>
    intro htextual
    cases test with
    | textual kind positive caseSensitive =>
        cases tested with
        | scalar kind => simpa [Test.isPresence, Test.takesOperands, Test.isTextual,
            Test.isComparison, ValueType.string] using h
        | list _ | set _ | map _ _ => simp [ValueType.degree] at hsingle
        | _ => simp [Test.isPresence, Test.takesOperands, Test.isTextual, Test.isEquality,
            ValueType.isString, ValueType.leaf, ValueType.string] at h
    | _ => cases htextual
  case ordering =>
    rintro hordering rfl
    cases test with
    | comparison kind => simp [Test.isPresence, Test.takesOperands, Test.isComparison,
        ScalarKind.isOrdered] at h
    | _ => cases hordering

/-! ## Valid conditions -/

/-- What holds of a condition in a filter that starts at a container. -/
structure Condition.Valid (s : Schema) (limit : Nat) (scope : String) (c : Condition) : Prop where
  resolves : Path.resolve s scope c.path.text = .ok c.path
  evaluable : c.path.checkEvaluable s = .ok ()
  operandCount : if c.test.isPresence then c.operands = []
    else 1 ≤ c.operands.length ∧ c.operands.length ≤ limit
  /-- The test and the operands fit what is compared of the last property. -/
  compared : ∃ container p tested, c.path.steps.getLast? = some (.property container p) ∧
    p.type.Compared s c.options tested ∧ c.test.Fits tested ∧
    ∀ operand ∈ c.operands, operand ≠ .null ∧ ∃ text, tested.toText operand = .ok text

/-- In a built schema the conditions that are made are valid. -/
theorem Condition.valid_of_makeCondition {d : SchemaDocument} {s : Schema} (hbuild : d.build = .ok s)
    {scope path : String} {options : ConditionOptions} {test : Test} {operands : List String}
    {c : Condition} {limit : Nat} (hlimit : operands.length ≤ limit)
    (h : Filter.makeCondition s scope path options test operands = .ok c) :
    c.Valid s limit scope := by
  have hkeyed := SchemaDocument.build_keyed hbuild
  obtain ⟨hresolved, hevaluable, htakes, rfl, rfl, p, tested, hp, htested, happlicable, hread⟩ :=
    Filter.makeCondition_eq_ok_iff.1 h
  have hlength : c.operands.length = operands.length :=
    (mapM_eq_ok_iff_forall₂.1 hread).length_eq.symm
  obtain ⟨container, hlast⟩ := Path.getLast?_of_terminal hp
  have hcompared := Filter.testedType_ok htested
  have hleaf : tested.leaf = tested := by
    refine hcompared.leaf_eq ?_ ?_
    · obtain ⟨holder, hholder, hproperty⟩ :=
        Path.holder_of_resolve hresolved (List.mem_of_getLast? hlast)
      exact (hkeyed holder (Schema.container?_some hholder).1 p
        (Schema.property?_some hproperty).1).1
    · intro target resource identifier hresource hidentifier
      have hmem := (Schema.container?_some (Schema.resource_ok hresource).1).1
      exact (hkeyed resource hmem identifier (List.mem_of_find?_eq_some hidentifier)).2
        (List.find?_some hidentifier)
  constructor
  case resolves => rw [(Path.resolve_ok hresolved).1, hresolved]
  case evaluable => exact hevaluable
  case operandCount =>
    rw [Test.isPresence, htakes, Bool.not_not]
    split
    · rename_i hempty
      rw [List.isEmpty_iff] at hempty
      rw [← List.length_eq_zero_iff, hlength, hempty, List.length_nil]
    · rename_i hempty
      rw [List.isEmpty_iff, ← List.length_eq_zero_iff] at hempty
      omega
  case compared =>
    refine ⟨container, p, tested, hlast, hcompared,
      Filter.fits_of_inapplicable? hleaf happlicable, ?_⟩
    intro operand hoperand
    obtain ⟨text, -, htext⟩ := (mem_of_mapM_eq_ok hread operand).1 hoperand
    exact ValueType.toText_of_parseText htext

end ResourceQuery
