import ResourceQuery.Fault
import ResourceQuery.Value
/-!
# Texts of values

Scalars, enums and references have a text under their type; objects and dynamic values have none.
An integer is accepted under every integer type whose range it fits. For references see
`ResourceQuery.Schema.Reference`, as their identifiers are typed by the schema.
-/

namespace ResourceQuery

/-- The text of a value by itself. -/
def Value.toText (v : Value) : Except Fault String :=
  match v.toText? with
  | some s => .ok s
  | none => .error (Fault.of (.noText v.kindName))

namespace ScalarKind

def truthWords : List String := ["true", "t", "yes", "y", "1"]

def falsityWords : List String := ["false", "f", "no", "n", "0"]

/-- What a text is not, where the reason is left to the notation. -/
def decimalReason : String := "not a decimal number"

def dateReason : String := "expected RFC 3339 or YYYY-MM-DD"

def conversionFault (what target : String) (reason : Option String) : Fault :=
  Fault.of (.conversion what target reason)

/-- The truth value of a word in any case. -/
def readTruth? (text : String) : Option Bool :=
  let lower := String.ofList (text.toList.map Char.toLower)
  if truthWords.contains lower then some true
  else if falsityWords.contains lower then some false
  else none

def parse (kind : ScalarKind) (text : String) : Except Fault Value :=
  let refuse (reason : Option String) : Except Fault Value :=
    .error (conversionFault text kind.name reason)
  match kind with
  | string => .ok (.text text)
  | whole width =>
    match Whole.read width text with
    | .ok n => .ok (.whole width n)
    | .error flaw => refuse (some flaw.message)
  | float =>
    match Binary.read text with
    | .ok x => .ok (.float x)
    | .error flaw => refuse (some flaw.message)
  | double =>
    match Binary.read text with
    | .ok x => .ok (.double x)
    | .error flaw => refuse (some flaw.message)
  | decimal =>
    match Decimal.read? text with
    | some d => .ok (.decimal d)
    | none => refuse (some decimalReason)
  | boolean =>
    match readTruth? text with
    | some b => .ok (.bool b)
    | none => refuse none
  | date =>
    match Instant.read? text with
    | some t => .ok (.date t)
    | none => refuse (some dateReason)

/-- An integer as a value of a width that it may not fit. -/
def fit (width : Width) (n : Int) : Except Fault (Whole width) :=
  match Whole.ofInt? width n with
  | some value => .ok value
  | none => .error (conversionFault (Numeral.ofInt n) width.name none)

/-- The value as one of this kind: smaller integers and binary numbers widen. -/
def coerce (kind : ScalarKind) (value : Value) : Except Fault Value :=
  match kind, value with
  | string, .text s => .ok (.text s)
  | boolean, .bool b => .ok (.bool b)
  | float, .float x => .ok (.float x)
  | double, .double x => .ok (.double x)
  | double, .float x => .ok (.double x.convert)
  | decimal, .decimal d => .ok (.decimal d)
  | date, .date t => .ok (.date t)
  | whole width, .whole _ n => do return .whole width (← fit width n.value)
  | _, _ => .error (conversionFault value.describe kind.name none)

/-- A single number under a double type keeps the digits of its own precision. -/
def toText (kind : ScalarKind) (value : Value) : Except Fault String := do
  match kind, value with
  | double, .float x => return x.positional
  | _, _ => (← kind.coerce value).toText

end ScalarKind

namespace ValueType

/-- The text of a value under the leaf of a type. -/
def toText (type : ValueType) (value : Value) : Except Fault String :=
  let refuse : Except Fault String :=
    .error (ScalarKind.conversionFault value.describe type.leaf.expression none)
  match type.leaf with
  | scalar kind => kind.toText value
  | enum members =>
    match value.text? with
    | some s => if members.contains s then .ok s else refuse
    | none => refuse
  | reference target =>
    match value.ref? with
    | some r => if target.accepts r.resourceType then .ok r.encode else refuse
    | none => refuse
  | leaf => .error (Fault.of (.noText leaf.expression))

/-- A text as a member of an enum. -/
def parseMember (members : List String) (text : String) : Except Fault Value :=
  if members.contains text then .ok (.enum text)
  else
    let reason := "expected one of " ++ Text.join ", " members
    .error (ScalarKind.conversionFault text "enum" (some reason))

end ValueType

end ResourceQuery
