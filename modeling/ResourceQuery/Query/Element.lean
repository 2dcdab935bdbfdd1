import ResourceQuery.Query.Reader
/-!
# Elements of parameter texts

Dotted property paths, qualifiers in the dash notation and the keys of filter groups, as written:
paths are not resolved and qualifiers have no meaning yet.
-/

namespace ResourceQuery

/-- A dotted property path and the place of its first character. -/
structure PathText where
  path : String
  position : Position
  deriving DecidableEq, Repr

namespace PathText

/-- Identifiers with points between them. -/
def reader : Reader PathText := do
  let position ← Reader.position
  let segments ← Reader.separated1 '.' Reader.identifier
  return ⟨Text.join "." segments, position⟩

end PathText

/-- A qualifier of a condition or a sort property, `substr-1-3` for instance. -/
structure Qualifier where
  name : String
  parameters : List String
  position : Position
  deriving DecidableEq, Repr

namespace Qualifier

/-- The characters of a parameter: none of the separators of the surrounding texts. -/
def isParameterPart (c : Char) : Bool := c.isAlphanum || c == '_' || c == '+' || c == '.'

def encode (q : Qualifier) : String := Text.join "-" (q.name :: q.parameters)

def reader : Reader Qualifier := do
  let position ← Reader.position
  let name ← Reader.identifier
  let parameters ← Reader.many (do Reader.char '-'; Reader.run1 isParameterPart)
  return ⟨name, parameters.map String.ofList, position⟩

/-- Qualifiers, each behind a colon. -/
def listReader : Reader (List Qualifier) := Reader.many (do Reader.char ':'; reader)

end Qualifier

/-- The address of a filter group: the key of the filter, and the groups from the outermost one. -/
structure GroupKey where
  segments : List String
  deriving DecidableEq, Repr

namespace GroupKey

def root (k : GroupKey) : String := k.segments.headD ""

def depth (k : GroupKey) : Nat := k.segments.length

def encode (k : GroupKey) : String := Text.join "." k.segments

/-- The number of segments that two lists have in common in front. -/
def sharedLength : List String → List String → Nat
  | a :: as, b :: bs => if a = b then sharedLength as bs + 1 else 0
  | _, _ => 0

def commonPrefix (k other : GroupKey) : Nat := sharedLength k.segments other.segments

def ancestor (k : GroupKey) (depth : Nat) : GroupKey := ⟨k.segments.take depth⟩

/-- The order of segments, the shorter key first. -/
def precedes (k other : GroupKey) : Bool := k.segments < other.segments

/-- An identifier, and groups named by letters, digits and underscores. -/
def reader : Reader GroupKey := do
  let root ← Reader.identifier
  let groups ← Reader.many (do Reader.char '.'; Reader.run1 Text.isIdentifierPart)
  return ⟨root :: groups.map String.ofList⟩

end GroupKey

end ResourceQuery
