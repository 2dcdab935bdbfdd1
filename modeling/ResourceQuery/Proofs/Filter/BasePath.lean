import ResourceQuery.Filter.Basic
import ResourceQuery.Proofs.Path.Steps
/-!
# Base paths

A filter gets a base path while it is empty, and its conditions start where the path leads
(`Filter.withBasePath_eq_ok_iff`). All else stays as it is, but for the types that are joined in.
-/

namespace ResourceQuery

namespace Filter

variable {s : Schema} {f based : Filter} {path : String}

theorem withBasePath_eq_ok_iff :
    f.withBasePath s path = .ok based ↔ f.isEmpty = true ∧ ∃ front property scope,
      Path.resolve s f.resourceType path = .ok front ∧ front.checkEvaluable s = .ok () ∧
      front.terminal = .ok property ∧ Path.opened s property = some scope ∧
      based = { f with
        basePath := some front
        scope := scope.name
        participatingTypes := NameSet.insertAll (front.participatingTypes ++
          if property.isReference then [scope.name] else []) f.participatingTypes } := by
  simp only [withBasePath, throw_bind, ite_error_eq_ok_iff, bind_eq_ok_iff]
  rw [Bool.not_eq_true, Bool.not_eq_false']
  refine and_congr_right fun _ => ?_
  constructor
  · rintro ⟨front, hfront, _, hevaluable, property, hproperty, h⟩
    split at h
    · rename_i scope hopened
      cases h
      exact ⟨front, property, scope, hfront, hevaluable, hproperty, hopened, rfl⟩
    · cases h
  · rintro ⟨front, property, scope, hfront, hevaluable, hproperty, hopened, rfl⟩
    refine ⟨front, hfront, (), hevaluable, property, hproperty, ?_⟩
    rw [hopened]
    rfl

theorem withBasePath_groups (h : f.withBasePath s path = .ok based) : based.groups = f.groups := by
  obtain ⟨-, _, _, _, -, -, -, -, rfl⟩ := withBasePath_eq_ok_iff.1 h
  rfl

theorem withBasePath_basePath (h : f.withBasePath s path = .ok based) :
    based.basePath.map Path.text = some path := by
  obtain ⟨-, front, _, _, hfront, -, -, -, rfl⟩ := withBasePath_eq_ok_iff.1 h
  rw [Option.map_some, (Path.resolve_ok hfront).1]

/-- Conditions start at the resource, or where the base path leads. -/
def Scoped (s : Schema) (resourceType : String) (f : Filter) : Prop :=
  match f.basePath with
  | none => f.scope = resourceType
  | some base => Path.resolve s resourceType base.text = .ok base ∧
      base.checkEvaluable s = .ok () ∧ ∃ container p,
        base.steps.getLast? = some (.property container p) ∧ p.isNavigable = true ∧
          p.target? = some f.scope

theorem scoped_of_withBasePath (h : f.withBasePath s path = .ok based) :
    based.Scoped s f.resourceType := by
  obtain ⟨-, front, property, scope, hfront, hevaluable, hproperty, hopened, rfl⟩ :=
    withBasePath_eq_ok_iff.1 h
  obtain ⟨container, hlast⟩ := Path.getLast?_of_terminal hproperty
  obtain ⟨hnavigable, htarget, -⟩ := Path.opened_eq_some hopened
  refine ⟨?_, hevaluable, container, property, hlast, hnavigable, htarget⟩
  show Path.resolve s f.resourceType front.text = .ok front
  rw [(Path.resolve_ok hfront).1, hfront]

end Filter

end ResourceQuery
