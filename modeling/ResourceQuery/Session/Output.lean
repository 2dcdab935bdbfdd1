import ResourceQuery.Fault
import ResourceQuery.Json.Basic
import ResourceQuery.Value
/-!
# Writing documents

A document is written by a sequence of calls: structures are opened and closed, and inside an object
or a map every value stands behind its name. What is open lies on a stack. A call that does not fit
is a fault; what the failed call had changed already stays changed.
-/

namespace ResourceQuery

/-- A structure that is open for writing. -/
inductive OpenOutput
  /-- An object or a map, with the name that waits for its value. -/
  | object (members : NameMap Json) (pending : Option String)
  | array (items : List Json)

structure JsonOutput where
  stack : List OpenOutput
  result : Option Json

abbrev Writing := ExceptT Fault (StateM JsonOutput)

namespace JsonOutput

def start : JsonOutput := ⟨[], none⟩

def misuse {α : Type} (flaw : Fault.UsageFlaw) : Writing α := throw (Fault.of (.usage flaw))

/-- Put a finished value to where it belongs. -/
def emit (value : Json) : Writing Unit := do
  let output ← get
  match output.stack with
  | [] =>
    if output.result.isSome then misuse .secondValue
    else set { output with result := some value }
  | .array items :: rest => set { output with stack := .array (items ++ [value]) :: rest }
  | .object members (some name) :: rest =>
    set { output with stack := .object (members.insert name value) none :: rest }
  | .object _ none :: _ => misuse .valueWithoutName

def push (opened : OpenOutput) : Writing Unit :=
  modify fun output => { output with stack := opened :: output.stack }

/-- Take the innermost open structure off the stack, if there is one. -/
def pop : Writing (Option OpenOutput) := do
  let output ← get
  match output.stack with
  | [] => return none
  | top :: rest =>
    set { output with stack := rest }
    return some top

/-- Open an object; one of a polymorphic type begins with the name of its variant. -/
def beginObject (discriminator : Option (String × String)) : Writing Unit :=
  push (.object (discriminator.map fun (name, tag) => (name, Json.string tag)).toList none)

/-- Name the next value. -/
def setName (name : String) : Writing Unit := do
  let output ← get
  match output.stack with
  | .object members _ :: rest =>
    set { output with stack := .object members (some name) :: rest }
  | _ => misuse (.nameOutsideObject name)

def endObject : Writing Unit := do
  match ← pop with
  | some (.object members _) => emit (.object members)
  | _ => misuse .noOpenObject

def beginCollection : Writing Unit := push (.array [])

def endCollection : Writing Unit := do
  match ← pop with
  | some (.array items) => emit (.array items)
  | _ => misuse .noOpenCollection

def beginMap : Writing Unit := push (.object [] none)

def endMap : Writing Unit := endObject

def writeNull : Writing Unit := emit .null

def writeBool (b : Bool) : Writing Unit := emit (.bool b)

def writeInteger (n : Int) : Writing Unit := emit (.number (.integer n))

/-- Only finite numbers have a place in a document. -/
def writeDouble (x : Double) : Writing Unit :=
  if x.isFinite then emit (.number (.double x))
  else throw (Fault.of (.conversion x.positional "JSON number" none))

def writeText (s : String) : Writing Unit := emit (.string s)

/-- Write a scalar or a reference by its kind: numbers as numbers, and all else as its text. -/
def writeLeaf : Value → Writing Unit
  | .null => writeNull
  | .bool b => writeBool b
  | .whole _ n => writeInteger n.value
  | .float x => writeDouble x.convert
  | .double x => writeDouble x
  | value =>
    match value.toText? with
    | some s => writeText s
    | none => throw (Fault.of (.noText value.kindName))

/-- The document, if everything was closed. -/
def finish (output : JsonOutput) : Except Fault Json :=
  if !output.stack.isEmpty then
    .error (Fault.of (.usage (.unterminated output.stack.length)))
  else match output.result with
    | some document => .ok document
    | none => .error (Fault.of (.usage .nothingWritten))

end JsonOutput

end ResourceQuery
