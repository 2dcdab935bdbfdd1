import ResourceQuery.Fault
import ResourceQuery.Numeral.Whole
import ResourceQuery.Query.Element
import ResourceQuery.ValueType.Basic
/-!
# Transforms

Functions applied to a string before it is compared. Parameters are written behind the name with
dashes; the fill of a padding is a character that may stand in a qualifier, so the written form can
be read again.
-/

namespace ResourceQuery

inductive TransformFunction
  | length
  | lowercase
  | substring
  | leftPad
  deriving DecidableEq, Repr

namespace TransformFunction

def all : List TransformFunction := [length, lowercase, substring, leftPad]

/-- The accepted names, the usual one first. -/
def names : TransformFunction → List String
  | length => ["len", "length"]
  | lowercase => ["lc", "lower", "lowercase"]
  | substring => ["substr", "substring"]
  | leftPad => ["lpad", "leftpad"]

def name (f : TransformFunction) : String := f.names.headD ""

/-- The number of parameters. -/
def arity : TransformFunction → Nat
  | length | lowercase => 0
  | substring | leftPad => 2

def allNames : List String := all.flatMap names

def ofName? (name : String) : Option TransformFunction := all.find? fun f => f.names.contains name

end TransformFunction

inductive Transform
  | length
  | lowercase
  | substring (start count : Nat)
  | leftPad (width : Nat) (fill : Char)
  deriving DecidableEq, Repr

namespace Transform

def function : Transform → TransformFunction
  | length => .length
  | lowercase => .lowercase
  | substring .. => .substring
  | leftPad .. => .leftPad

/-- The greatest number that a parameter may be. -/
def parameterBound : Nat := 0xffffffff

def refuse {α : Type} (flaw : Fault.RequestFlaw) (value : String) : Except Fault α :=
  .error ((Fault.of (.request flaw)).about value)

/-- The parameter with a number, counted from one, as a natural number. -/
def number (f : TransformFunction) (index : Nat) (text : String) : Except Fault Nat :=
  match Numeral.readNat? parameterBound text with
  | some n => .ok n
  | none => refuse (.transformNumber f.name index) text

/-- The transform of a name and its parameters. -/
def ofName (name : String) (parameters : List String) : Except Fault Transform := do
  let some f := TransformFunction.ofName? name
    | throw (Fault.of (.unknownName "transform" name TransformFunction.allNames))
  let wrongCount : Except Fault Transform :=
    refuse (.transformArity f.name f.arity parameters.length) name
  match f, parameters with
  | .length, [] => return .length
  | .lowercase, [] => return .lowercase
  | .substring, [start, count] => return .substring (← number f 1 start) (← number f 2 count)
  | .leftPad, [width, fill] =>
    match fill.toList with
    | [c] =>
      if Qualifier.isParameterPart c then return .leftPad (← number f 1 width) c
      else refuse .transformFill fill
    | _ => refuse .transformFill fill
  | _, _ => wrongCount

def appliesTo (_ : Transform) (type : ValueType) : Bool := type == .string

/-- The type of what a transform makes of a string. -/
def resultType : Transform → ValueType
  | length => .scalar (.whole .integer)
  | _ => .string

/-- The parameters as written. -/
def parameters : Transform → List String
  | length | lowercase => []
  | substring start count => [Numeral.ofNat start, Numeral.ofNat count]
  | leftPad width fill => [Numeral.ofNat width, fill.toString]

def encode (t : Transform) : String := Text.join "-" (t.function.name :: t.parameters)

end Transform

end ResourceQuery
