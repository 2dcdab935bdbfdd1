import ResourceQuery.Query.ListText
import ResourceQuery.SortOrder
/-!
# Meaning of qualifiers

Qualifiers of a condition name what is compared, a transform and the test, which comes last. Those
of a sort property name the identifier, a transform and the direction, which comes last. None of
them may be repeated.
-/

namespace ResourceQuery

namespace Qualifier

def isPlain (q : Qualifier) : Bool := q.parameters.isEmpty

def refuse {α : Type} (q : Qualifier) (flaw : Fault.RequestFlaw) : Except Fault α :=
  .error (((Fault.of (.request flaw)).about q.encode).locatedAt q.position)

/-- The transform that a qualifier names. -/
def transform (q : Qualifier) : Except Fault Transform :=
  match Transform.ofName q.name q.parameters with
  | .ok t => .ok t
  | .error fault => .error (fault.locatedAt q.position)

def operandKind? (q : Qualifier) : Option OperandKind :=
  if q.isPlain then OperandKind.ofQualifier? q.name else none

def test? (q : Qualifier) : Option Test := if q.isPlain then Test.ofName? q.name else none

def direction? (q : Qualifier) : Option Direction :=
  if q.isPlain then Direction.ofName? q.name else none

/-- What was read of the qualifiers of a condition so far. -/
structure ConditionReading where
  options : ConditionOptions := {}
  test : Option Test := none

def readCondition (r : ConditionReading) (q : Qualifier) : Except Fault ConditionReading := do
  if r.test.isSome then q.refuse .testNotLast
  match q.operandKind?, q.test? with
  | some kind, _ =>
    if r.options.operandKind ≠ .value then q.refuse .repeatedOperand
    return { r with options := { r.options with operandKind := kind } }
  | none, some test => return { r with test := some test }
  | none, none =>
    if r.options.transform.isSome then q.refuse .repeatedTransform
    return { r with options := { r.options with transform := some (← q.transform) } }

/-- The meaning of the qualifiers of a condition. -/
def ofCondition (qualifiers : List Qualifier) : Except Fault ConditionReading :=
  qualifiers.foldlM readCondition {}

/-- What was read of the qualifiers of a sort property so far. -/
structure SortReading where
  direction : Option Direction := none
  transform : Option Transform := none
  byId : Bool := false

def readSort (r : SortReading) (q : Qualifier) : Except Fault SortReading := do
  if r.direction.isSome then q.refuse .directionNotLast
  match q.direction? with
  | some direction => return { r with direction := some direction }
  | none =>
    if q.name = "id" ∧ q.isPlain ∧ !r.byId then return { r with byId := true }
    else if r.transform.isNone then return { r with transform := some (← q.transform) }
    else q.refuse .repeatedTransform

/-- The meaning of the qualifiers of a sort property. -/
def ofSort (qualifiers : List Qualifier) : Except Fault SortReading :=
  qualifiers.foldlM readSort {}

end Qualifier

end ResourceQuery
