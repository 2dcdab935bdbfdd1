import ResourceQuery.Path.Basic
import ResourceQuery.Transform
import ResourceQuery.ValueType.Text
/-!
# Conditions

A test of a property against operands, of which one has to fit. What is tested is the value itself,
the key of a map entry or the identifier behind a reference, each maybe transformed.
-/

namespace ResourceQuery

inductive Comparison
  | lt
  | le
  | gt
  | ge
  deriving DecidableEq, Repr

inductive TextTest
  | pattern
  | beginning
  deriving DecidableEq, Repr

inductive Test
  | equality (equal : Bool)
  | comparison (kind : Comparison)
  | textual (kind : TextTest) (positive caseSensitive : Bool)
  | presence (present : Bool)
  deriving DecidableEq, Repr

namespace Test

def all : List Test :=
  [equality true, equality false, comparison .lt, comparison .le, comparison .gt, comparison .ge,
    textual .pattern true false, textual .pattern true true, textual .pattern false false,
    textual .pattern false true, textual .beginning true false, textual .beginning true true,
    textual .beginning false false, textual .beginning false true, presence false, presence true]

/-- The name in a filter parameter. -/
def name : Test → String
  | equality true => "eq"
  | equality false => "ne"
  | comparison .lt => "lt"
  | comparison .le => "le"
  | comparison .gt => "gt"
  | comparison .ge => "ge"
  | textual kind positive caseSensitive =>
    let word := match kind with
      | .pattern => "match"
      | .beginning => "prefix"
    (if positive then "" else "n") ++ word ++ (if caseSensitive then "cs" else "")
  | presence false => "empty"
  | presence true => "nempty"

/-- The name in a written specification. -/
def label : Test → String
  | equality true => "EQ"
  | equality false => "NE"
  | comparison .lt => "LT"
  | comparison .le => "LE"
  | comparison .gt => "GT"
  | comparison .ge => "GE"
  | textual kind positive caseSensitive =>
    let word := match kind with
      | .pattern => "MATCH"
      | .beginning => "PREFIX"
    (if positive then "" else "NOT_") ++ word ++ (if caseSensitive then "_CS" else "")
  | presence false => "EMPTY"
  | presence true => "NOT_EMPTY"

/-- A test by its name; the least and the greatest value have names of their own. -/
def ofName? (name : String) : Option Test :=
  if name = "min" then some (comparison .ge)
  else if name = "max" then some (comparison .le)
  else all.find? fun t => t.name == name

def takesOperands : Test → Bool
  | presence _ => false
  | _ => true

def isPresence (t : Test) : Bool := !t.takesOperands

def isEquality : Test → Bool
  | equality _ => true
  | _ => false

def isComparison : Test → Bool
  | comparison _ => true
  | _ => false

def isTextual : Test → Bool
  | textual .. => true
  | _ => false

def isCaseSensitive : Test → Bool
  | textual _ _ caseSensitive => caseSensitive
  | _ => false

end Test

/-- What a condition compares with its operands. -/
inductive OperandKind
  | value
  | key
  | id
  deriving DecidableEq, Repr

namespace OperandKind

def name : OperandKind → String
  | value => "value"
  | key => "key"
  | id => "id"

/-- The qualifier that asks for the kind; the value itself needs none. -/
def qualifier? : OperandKind → Option String
  | value => none
  | key => some "key"
  | id => some "id"

def ofQualifier? (name : String) : Option OperandKind :=
  if name = "key" then some key else if name = "id" then some id else none

end OperandKind

/-- What qualifies a condition besides its test. -/
structure ConditionOptions where
  transform : Option Transform := none
  operandKind : OperandKind := .value
  negated : Bool := false
  deriving DecidableEq, Repr

structure Condition where
  test : Test
  path : Path
  options : ConditionOptions
  operands : List Value

namespace Condition

/-- The part of a parameter name behind the group; equality is not named. -/
def suffix (c : Condition) : String :=
  let qualifiers := c.options.operandKind.qualifier?.toList
    ++ (c.options.transform.map Transform.encode).toList
    ++ (if c.test = .equality true then [] else [c.test.name])
  Text.join ":" (c.path.text :: qualifiers) ++ (if c.options.negated then "!" else "")

/-- The parameter that the condition is written as, with its values. -/
def encode (c : Condition) : Except Fault (String × List String) := do
  if c.operands.isEmpty then return (c.suffix, [""])
  else return (c.suffix, ← c.operands.mapM Value.toText)

end Condition

end ResourceQuery
