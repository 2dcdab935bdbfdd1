import ResourceQuery.Query.Reader
import ResourceQuery.Text.Blank
import ResourceQuery.ValueType.Basic
/-!
# Type expressions

Reading the written form of a type. White space is allowed around the whole expression and between
the brackets; names are identifiers, and a reference may have the wildcard for a target.
-/

namespace ResourceQuery.ValueType

def isGap (c : Char) : Bool := c == ' ' || c == '\t' || c == '\r' || c == '\n'

/-- A piece with white space around it. -/
def spaced {α : Type} (read : Reader α) : Reader α := do
  let _ ← Reader.run isGap
  let value ← read
  let _ ← Reader.run isGap
  return value

def enclosed {α : Type} (opening : List Char) (read : Reader α) (closing : Char) : Reader α := do
  Reader.word opening
  let value ← read
  Reader.char closing
  return value

def targetReader : Reader Target :=
  Reader.orElse (do Reader.char '*'; return .any) (do return .resource (← Reader.identifier))

def enumReader : Reader ValueType := do
  let members := Reader.separated1 '|' (spaced Reader.identifier)
  return enum (← enclosed ['e', 'n', 'u', 'm', '('] members ')')

def referenceReader : Reader ValueType := do
  return reference (← enclosed ['r', 'e', 'f', '('] (spaced targetReader) ')')

def objectReader : Reader ValueType := do
  return object (← enclosed ['o', 'b', 'j', 'e', 'c', 't', '('] (spaced Reader.identifier) ')')

def nameReader : Reader ValueType := fun cursor => do
  let (name, after) ← Reader.identifier cursor
  if name = "dynamic" then return (dynamic, after)
  match ScalarKind.ofName? name with
  | some kind => return (scalar kind, after)
  | none => throw (.absent cursor.position)

/-- A type expression; collections nest no deeper than the number says. -/
def reader : Nat → Reader ValueType
  | 0 => Reader.absent
  | depth + 1 =>
    let inner := spaced (reader depth)
    let listReader : Reader ValueType := do
      return list (← enclosed ['l', 'i', 's', 't', '<'] inner '>')
    let setReader : Reader ValueType := do
      return set (← enclosed ['s', 'e', 't', '<'] inner '>')
    let entries : Reader (ValueType × ValueType) := do
      let key ← inner
      Reader.char ','
      return (key, ← inner)
    let mapReader : Reader ValueType := do
      let (key, value) ← enclosed ['m', 'a', 'p', '<'] entries '>'
      return map key value
    [listReader, setReader, mapReader, referenceReader, objectReader, enumReader].foldr
      Reader.orElse nameReader

/-- The type that an expression stands for. Every level of nesting takes a character at least. -/
def parse (text : String) : Except Fault ValueType :=
  let trimmed := Text.trim text.toList
  Reader.readAll "type expression" (reader (trimmed.length + 1)) (String.ofList trimmed)

end ResourceQuery.ValueType
