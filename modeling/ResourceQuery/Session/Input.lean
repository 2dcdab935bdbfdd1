import ResourceQuery.Fault
import ResourceQuery.Json.Printer
import ResourceQuery.Json.Reader
import ResourceQuery.Session.Identity
import ResourceQuery.ValueType.Text
/-!
# Reading documents

A document is read by a sequence of calls that pull one value after the other. What is open lies on
a stack, with what is left of it; the next value, once it is known, waits to be taken. Members of an
object come in the order of their names.
-/

namespace ResourceQuery

/-- A structure that is open for reading. -/
inductive OpenInput
  | object (entries : List (String × Json))
  | array (items : List Json)

structure JsonInput where
  next : Option Json
  stack : List OpenInput
  identities : Option IdentityCache := none

abbrev Reading := ExceptT Fault (StateM JsonInput)

/-- Go on with an outcome that does not depend on the document. -/
def Reading.lift {α : Type} (outcome : Except Fault α) : Reading α :=
  match outcome with
  | .ok value => return value
  | .error fault => throw fault

namespace JsonInput

/-- A document, maybe with a cache of the objects in it. -/
def ofJson (document : Json) (caching : Bool) : JsonInput :=
  ⟨some document.canonical, [], if caching then some .empty else none⟩

def ofText (text : String) (caching : Bool) : Except Fault JsonInput :=
  match Json.parse? text with
  | some document => .ok (ofJson document caching)
  | none => .error (Fault.of (.data .malformedJson))

def refuse {α : Type} (flaw : Fault.DataFlaw) : Reading α := throw (Fault.of (.data flaw))

def unexpected {α : Type} (expected : String) (found : Json) : Reading α :=
  refuse (.unexpected expected found.compact)

/-- Take the value that waits. -/
def take (expected : String) : Reading Json := do
  let input ← get
  match input.next with
  | some value =>
    set { input with next := none }
    return value
  | none => refuse (.endOfInput expected)

def push (opened : OpenInput) : Reading Unit :=
  modify fun input => { input with stack := opened :: input.stack }

def pop : Reading (Option OpenInput) := do
  let input ← get
  match input.stack with
  | [] => return none
  | top :: rest =>
    set { input with stack := rest }
    return some top

/-- Take the value that waits if it is a null. -/
def readNull : Reading Bool := do
  let input ← get
  match input.next with
  | some .null =>
    set { input with next := none }
    return true
  | _ => return false

/-- Open an object. The member with the given name tells the variant and is not met again. -/
def beginObject (discriminator : Option String) : Reading (Option String) := do
  let members ← match ← take "object" with
    | .object members => pure members
    | found => unexpected "object" found
  match discriminator with
  | none =>
    push (.object members)
    return none
  | some name =>
    let others := members.filter fun member => member.1 ≠ name
    match NameMap.find? name members with
    | some (.string tag) =>
      push (.object others)
      return some tag
    | some found => unexpected "type name" found
    | none =>
      push (.object others)
      return none

/-- The name of the next member, whose value waits from now on. -/
def nextName : Reading (Option String) := do
  let input ← get
  match input.stack with
  | .object ((name, value) :: entries) :: rest =>
    set { input with next := some value, stack := .object entries :: rest }
    return some name
  | .object [] :: _ => return none
  | _ => refuse .propertyOutsideObject

def endObject : Reading Unit := do
  match ← pop with
  | some (.object _) => return ()
  | _ => refuse .noOpenObject

def beginCollection : Reading Unit := do
  match ← take "array" with
  | .array items => push (.array items)
  | found => unexpected "array" found

/-- Whether there is one more element, which waits from now on. -/
def nextElement : Reading Bool := do
  let input ← get
  match input.stack with
  | .array (item :: items) :: rest =>
    set { input with next := some item, stack := .array items :: rest }
    return true
  | .array [] :: _ => return false
  | _ => refuse .elementOutsideCollection

def endCollection : Reading Unit := do
  match ← pop with
  | some (.array _) => return ()
  | _ => refuse .noOpenCollection

def beginMap : Reading Unit := do
  let _ ← beginObject none

def endMap : Reading Unit := endObject

/-- Take the value that waits, whatever it is. -/
def skip : Reading Unit := do
  let _ ← take "value"

def readBool : Reading Bool := do
  match ← take "boolean" with
  | .bool b => return b
  | found => unexpected "boolean" found

/-- An integer of a width. One that is too large for eight octets is no integer of any width. -/
def readWhole (width : Width) : Reading (Whole width) := do
  match ← take "integer number" with
  | .number (.integer n) =>
    match Whole.ofInt? .long n with
    | some n => Reading.lift (ScalarKind.fit width n.value)
    | none => throw (ScalarKind.conversionFault (Numeral.ofInt n) Width.long.name none)
  | found => unexpected "integer number" found

def readDouble : Reading Double := do
  match ← take "number" with
  | .number (.integer n) => return Binary.ofInt n
  | .number (.double x) => return x
  | .number (.single x) => return x.convert
  | found => unexpected "number" found

def readText : Reading String := do
  match ← take "string" with
  | .string s => return s
  | found => unexpected "string" found

def readDecimal : Reading Decimal := do
  let text ← readText
  match Decimal.read? text with
  | some d => return d
  | none => throw (ScalarKind.conversionFault text "decimal" (some ScalarKind.decimalReason))

/-- What a text is not that stands where a timestamp is expected. -/
def timestampReason : String := "not a timestamp"

/-- Unlike the text of a date in a parameter, a plain day is not accepted. -/
def readDate : Reading Instant := do
  let text ← readText
  match Instant.readTimestamp? text with
  | some t => return t
  | none => throw (ScalarKind.conversionFault text "date" (some timestampReason))

/-- A scalar of a kind. -/
def readScalar : ScalarKind → Reading Value
  | .string => do return .text (← readText)
  | .whole width => do return .whole width (← readWhole width)
  | .float => do return .float (← readDouble).convert
  | .double => do return .double (← readDouble)
  | .boolean => do return .bool (← readBool)
  | .decimal => do return .decimal (← readDecimal)
  | .date => do return .date (← readDate)

/-- Use the cache, if there is one. -/
def withIdentities (f : IdentityCache → IdentityCache) : Reading Unit :=
  modify fun input => { input with identities := input.identities.map f }

/-- Everything that is left of the document, counted in values and names. -/
def weight (input : JsonInput) : Nat :=
  (input.next.map Json.weight).getD 0 + (input.stack.map fun opened =>
    match opened with
    | .object entries => 1 + Json.weightMembers entries
    | .array items => 1 + Json.weightItems items).foldl (· + ·) 0

end JsonInput

end ResourceQuery
