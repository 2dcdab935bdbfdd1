import ResourceQuery.Proofs.Schema.Lookups
/-!
# What a declaration misses

A document may be refused because a dependent reference or an aggregate names a property that
another container does not have. This is the fault of no other step of building, and the property
is not there when it is met (`Schema.fails_declare`).
-/

namespace ResourceQuery

/-- What a dependent reference or an aggregate does not find in another container: its own
container, the one it looks into and the name. -/
def Fault.missing? (fault : Fault) : Option (String × String × String) :=
  match fault.cause with
  | .property container _ (.reverseUnknown target name) => some (container, target, name)
  | .property container _ (.sourceUnknown target name) => some (container, target, name)
  | _ => none

/-- The outcome is no such failure. -/
abbrev MissesNothing {α : Type} (x : Except Fault α) : Prop :=
  FailsBy (fun fault => fault.missing? = none) x

namespace Schema

theorem fails_container (s : Schema) (name : String) :
    MissesNothing (s.container name) := by
  unfold container
  split
  · exact .ok
  · exact .error rfl

theorem fails_resource (s : Schema) (name : String) : MissesNothing (s.resource name) := by
  refine (s.fails_container name).bind fun c _ => ?_
  split
  · exact .ok
  · exact .error rfl

end Schema

namespace PropertyDeclaration

variable {d : PropertyDeclaration} {s : Schema} {c : Container} {type : ValueType}

/-- If the fault of a declaration is that a property is not found, then it is a declaration of what
is computed, and the property is not there. -/
def Misses (d : PropertyDeclaration) (s : Schema) (holder : String) (fault : Fault) : Prop :=
  ∀ container target name, fault.missing? = some (container, target, name) →
    container = holder ∧ d.isDeferred = true ∧ s.lookup target name = none

theorem misses_of_none {holder : String} {fault : Fault} (h : fault.missing? = none) :
    d.Misses s holder fault := by
  intro _ _ _ hmissing
  rw [h] at hmissing
  cases hmissing

theorem misses_of_property? {holder target name : String} {element : Container}
    (hdeferred : d.isDeferred = true) (helement : s.container? target = some element)
    (hnone : element.property? name = none) {fault : Fault}
    (h : fault.missing? = some (holder, target, name)) : d.Misses s holder fault := by
  intro _ _ _ hmissing
  rw [h] at hmissing
  cases hmissing
  exact ⟨rfl, hdeferred, by rw [Schema.lookup_of_container? helement, hnone]⟩

theorem fails_valueType (container : String) : MissesNothing (d.valueType container) := by
  unfold valueType
  split
  · exact .ok
  · exact .error rfl

theorem fails_effectiveKind (container : String) :
    MissesNothing (d.effectiveKind container) := by
  unfold effectiveKind
  split
  · exact .ok
  · refine (fails_valueType container).bind fun type _ => ?_
    split <;> exact .ok

theorem fails_checkNames (container : String) :
    MissesNothing (d.checkNames s container type) := by
  induction type with
  | object name =>
      unfold checkNames
      split
      · exact .check rfl .ok
      · exact .error rfl
  | reference target =>
      cases target with
      | any => exact .ok
      | resource name =>
          unfold checkNames
          split
          · exact .ok
          · exact .error rfl
  | enum members => exact .check rfl .ok
  | list inner ih => exact ih
  | set inner ih => exact ih
  | map key inner ihKey ihInner =>
      unfold checkNames
      simp only [refuse_bind]
      exact .check rfl (ihKey.bind fun _ _ => ihInner)
  | scalar _ => exact .ok
  | dynamic => exact .ok

theorem fails_persistence {k : PropertyKind} :
    MissesNothing (d.persistence c k type) := by
  have hstorage : ∀ storage, MissesNothing
      (d.collectionStorage c.name type storage) := by
    intro storage
    unfold collectionStorage
    simp only [refuse_bind]
    refine .check rfl ?_
    split
    · exact .check rfl (.check rfl .ok)
    · exact .error rfl
  unfold persistence
  simp only [refuse_bind]
  split
  · refine .check rfl (.bind ?_ fun _ _ => .ok)
    cases d.storage with
    | none => exact .ok
    | some storage => exact (hstorage storage).bind fun _ _ => .ok
  · exact .check rfl .ok

theorem fails_checkFunction {container : String} {function : AggregateFunction}
    {source : Option ScalarKind} {receiving : ScalarKind} :
    MissesNothing
      (d.checkFunction container function source receiving) := by
  unfold checkFunction
  split <;> first | exact .error rfl | (split <;> first | exact .ok | exact .error rfl)

section Deferred

variable (hdeferred : d.isDeferred = true)

include hdeferred

/-- A dependent reference has another flaw, or the reverse property is missing. -/
theorem fails_dependentReference :
    FailsBy (d.Misses s c.name) (d.dependentReference s c type) := by
  have hother : ∀ {fault : Fault}, fault.missing? = none → d.Misses s c.name fault :=
    misses_of_none
  unfold dependentReference
  simp only [refuse_bind]
  split
  case h_2 => exact .error (hother rfl)
  split
  case h_2 => exact .error (hother rfl)
  refine .check (hother rfl) (.bind ((s.fails_resource _).imp fun _ => hother)
    fun resource hresource => ?_)
  split
  · exact .check (hother rfl) (.check (hother rfl) .ok)
  · rename_i hnone
    exact .error (misses_of_property? hdeferred (Schema.resource_ok hresource).1
      (Option.eq_none_iff_forall_ne_some.2 hnone) rfl)

theorem fails_sourceKind {target : String} {element : Container}
    (helement : s.container? target = some element) (source : Option String) :
    FailsBy (d.Misses s c.name) (d.sourceKind c.name element source) := by
  unfold sourceKind
  split
  · exact .ok
  · split
    · rename_i hnone
      obtain ⟨-, rfl⟩ := Schema.container?_some helement
      exact .error (misses_of_property? hdeferred helement hnone rfl)
    · split
      · exact .ok
      · exact .error (misses_of_none rfl)

/-- An aggregate has another flaw, or its source is missing. -/
theorem fails_aggregateOver {dependent : Bool} :
    FailsBy (d.Misses s c.name) (d.aggregateOver s c dependent type) := by
  have hother : ∀ {fault : Fault}, fault.missing? = none → d.Misses s c.name fault :=
    misses_of_none
  unfold aggregateOver
  simp only [refuse_bind]
  split
  case h_2 => exact .error (hother rfl)
  refine .check (hother rfl) ?_
  split
  case h_2 => exact .error (hother rfl)
  split
  case h_2 => exact .error (hother rfl)
  split
  all_goals
    refine .check (hother rfl) ?_
    split
    · refine .bind ((s.fails_container _).imp fun _ => hother) fun element hfound => ?_
      refine (fails_sourceKind hdeferred (Schema.container_eq_ok_iff.1 hfound) _).bind
        fun source _ => ?_
      exact (fails_checkFunction.imp fun _ => hother).bind fun _ _ => .ok
    · exact .error (hother rfl)

end Deferred

theorem isDeferred_of_effectiveKind {kind : DeclaredKind}
    (h : d.effectiveKind c.name = .ok kind)
    (hkind : kind = .dependentReference ∨ kind = .aggregate ∨ kind = .dependentAggregate) :
    d.isDeferred = true := by
  rcases effectiveKind_ok h with hdeclared | rfl | rfl | rfl
  · rcases hkind with rfl | rfl | rfl <;> rw [isDeferred, hdeclared]
  all_goals simp at hkind

theorem fails_propertyKind {kind : DeclaredKind} (h : d.effectiveKind c.name = .ok kind) :
    FailsBy (d.Misses s c.name) (d.propertyKind s c kind type) := by
  have hother : ∀ {fault : Fault}, fault.missing? = none → d.Misses s c.name fault :=
    misses_of_none
  have hdeferred := isDeferred_of_effectiveKind h
  cases kind <;> simp only [propertyKind, refuse_bind]
  case id => exact .check (hother rfl) (.check (hother rfl) .ok)
  case simple => exact .check (hother rfl) .ok
  case object | reference =>
    split
    · exact .ok
    · exact .error (hother rfl)
  case stamp =>
    split
    · exact .check (hother rfl) .ok
    · exact .error (hother rfl)
  case dependentReference => exact fails_dependentReference (hdeferred (.inl rfl))
  case aggregate => exact fails_aggregateOver (hdeferred (.inr (.inl rfl)))
  case dependentAggregate => exact fails_aggregateOver (hdeferred (.inr (.inr rfl)))

theorem fails_build {kind : DeclaredKind} (h : d.effectiveKind c.name = .ok kind) :
    FailsBy (d.Misses s c.name) (d.build s c kind) := by
  have hother : ∀ {fault : Fault}, fault.missing? = none → d.Misses s c.name fault :=
    misses_of_none
  unfold build
  simp only [refuse_bind, throw_bind]
  refine .check (hother rfl) (.bind ((fails_valueType c.name).imp fun _ => hother) fun _ _ => ?_)
  refine .bind ((fails_checkNames c.name).imp fun _ => hother) fun _ _ => ?_
  refine (fails_propertyKind h).bind fun _ _ => ?_
  exact .bind (fails_persistence.imp fun _ => hother) fun _ _ => .check (hother rfl) .ok

end PropertyDeclaration

namespace Schema

theorem fails_modify {s : Schema} {name : String} {f : Container → Except Fault Container}
    (hf : ∀ c, MissesNothing (f c)) :
    MissesNothing (s.modify name f) := by
  refine .bind (.mapM fun c _ => ?_) fun _ _ => .ok
  split
  · exact hf c
  · exact .ok

theorem fails_add (c : Container) (p : Property) :
    MissesNothing (c.add p) := by
  unfold Container.add
  simp only [throw_bind]
  refine .check rfl ?_
  split
  · exact .ok
  · exact .error rfl

theorem fails_declare (s : Schema) (holder : String) (d : PropertyDeclaration) :
    FailsBy (d.Misses s holder) (s.declare holder d) := by
  have hother : ∀ {fault : Fault}, fault.missing? = none → d.Misses s holder fault :=
    PropertyDeclaration.misses_of_none
  refine .bind ((s.fails_container holder).imp fun _ => hother) fun c hc => ?_
  obtain ⟨-, rfl⟩ := container_ok hc
  refine .bind ((PropertyDeclaration.fails_effectiveKind _).imp fun _ => hother)
    fun kind hkind => ?_
  refine (PropertyDeclaration.fails_build hkind).bind fun p _ => ?_
  exact (fails_modify fun c => fails_add c p).imp fun _ => hother

/-- Plain properties look into no other container. -/
theorem fails_declarePlain (s : Schema) (name : String) (properties : List PropertyDeclaration) :
    MissesNothing (s.declarePlain name properties) := by
  refine .bind (.bind (s.fails_container name) fun c _ => ?_) fun marked _ => ?_
  · split
    · exact fails_modify fun c => fails_add c _
    · exact .ok
  · refine .foldlM fun s d hd => ?_
    have hplain : d.isDeferred = false := by simpa using (List.mem_filter.1 hd).2
    refine (s.fails_declare name d).imp fun fault hmisses => ?_
    rw [Option.eq_none_iff_forall_ne_some]
    rintro ⟨container, target, name⟩ hmissing
    obtain ⟨-, hdeferred, -⟩ := hmisses container target name hmissing
    rw [hplain] at hdeferred
    cases hdeferred

theorem fails_checkTypeName (name : String) :
    MissesNothing (checkTypeName name) := by
  unfold checkTypeName
  split
  · exact .ok
  · exact .error rfl

theorem fails_register (s : Schema) (name : String) (role : ContainerRole)
    (shape : ContainerShape) :
    MissesNothing (s.register name role shape) :=
  .check rfl .ok

theorem fails_registerType (s : Schema) (d : TypeDeclaration) (role : ContainerRole) :
    MissesNothing (s.registerType d role) := by
  have hshape : MissesNothing d.shape := by
    unfold TypeDeclaration.shape
    simp only [throw_bind]
    split
    · exact .check rfl (.check rfl .ok)
    · split
      · exact .ok
      · exact .error rfl
  refine (fails_checkTypeName _).bind fun _ _ => hshape.bind fun shape _ => ?_
  refine (s.fails_register _ _ _).bind fun u _ => ?_
  refine .foldlM fun u v _ => ?_
  exact (fails_checkTypeName _).bind fun _ _ => u.fails_register _ _ _

theorem fails_inheritBase (s : Schema) (c : Container) :
    MissesNothing (s.inheritBase c) := by
  unfold inheritBase
  split
  · refine (s.fails_container _).bind fun base _ => fails_modify fun c => ?_
    unfold Container.inherit
    split
    · exact .ok
    · exact .error rfl
  · exact .ok

theorem fails_checkContainer (c : Container) :
    MissesNothing (checkContainer c) := by
  unfold checkContainer
  simp only [throw_bind]
  exact .check rfl (.check rfl .ok)

end Schema

end ResourceQuery
