import ResourceQuery.Fault
import ResourceQuery.Text.Identifier
/-!
# Readers of parameter texts

A `Reader` takes something from the front of a text and knows where it stands. A reader that does
not find its piece is `absent`, and another one may be tried at the same place; a text that can mean
nothing whatever follows is `broken`. Repetition keeps what was read up to the last complete piece,
so a trailing separator stays in front of the cursor.
-/

namespace ResourceQuery

structure Cursor where
  position : Position
  rest : List Char
  deriving Repr

namespace Cursor

def start (text : String) : Cursor := ⟨.start, text.toList⟩

/-- The characters in front that satisfy a predicate, and the cursor behind them. -/
def span (p : Char → Bool) (position : Position) : List Char → List Char × Cursor
  | [] => ([], ⟨position, []⟩)
  | c :: rest =>
    if p c then
      let (front, after) := span p (position.advance c) rest
      (c :: front, after)
    else ([], ⟨position, c :: rest⟩)

end Cursor

/-- Why a reader stopped, and where. -/
inductive Stop
  | absent (position : Position)
  | broken (position : Position)
  deriving Repr

def Stop.position : Stop → Position
  | absent position | broken position => position

abbrev Reader := StateT Cursor (Except Stop)

namespace Reader

variable {α : Type}

def position : Reader Position := do return (← get).position

def absent : Reader α := do throw (.absent (← position))

/-- The longest run of characters that satisfy a predicate, maybe none. -/
def run (p : Char → Bool) : Reader (List Char) := fun cursor =>
  .ok (Cursor.span p cursor.position cursor.rest)

/-- The longest run of characters that satisfy a predicate, at least one. -/
def run1 (p : Char → Bool) : Reader (List Char) := fun cursor =>
  let (front, after) := Cursor.span p cursor.position cursor.rest
  if front.isEmpty then .error (.absent cursor.position) else .ok (front, after)

def char (c : Char) : Reader Unit := fun cursor =>
  match cursor.rest with
  | [] => .error (.absent cursor.position)
  | d :: rest =>
    if d = c then .ok ((), ⟨cursor.position.advance c, rest⟩)
    else .error (.absent cursor.position)

def word (text : List Char) : Reader Unit := fun cursor =>
  if text.isPrefixOf cursor.rest then
    .ok ((), ⟨text.foldl Position.advance cursor.position, cursor.rest.drop text.length⟩)
  else .error (.absent cursor.position)

/-- The first reader, or the second one where the first finds nothing. -/
def orElse (first second : Reader α) : Reader α := fun cursor =>
  match first cursor with
  | .error (.absent _) => second cursor
  | outcome => outcome

def optional (read : Reader α) : Reader (Option α) := fun cursor =>
  match read cursor with
  | .ok (value, after) => .ok (some value, after)
  | .error (.absent _) => .ok (none, cursor)
  | .error (.broken position) => .error (.broken position)

/-- As many pieces as there are. Every piece takes a character at least. -/
def many (read : Reader α) (cursor : Cursor) : Except Stop (List α × Cursor) :=
  match read cursor with
  | .error (.absent _) => .ok ([], cursor)
  | .error (.broken position) => .error (.broken position)
  | .ok (value, after) =>
    if after.rest.length < cursor.rest.length then
      (many read after).map fun (values, last) => (value :: values, last)
    else .error (.absent cursor.position)
  termination_by cursor.rest.length

/-- One piece at least, with a separator between pieces. -/
def separated1 (separator : Char) (read : Reader α) : Reader (List α) := do
  let first ← read
  let others ← many (do char separator; read)
  return first :: others

/-- Pieces with a separator between them, maybe none. -/
def separated (separator : Char) (read : Reader α) : Reader (List α) := do
  return (← optional (separated1 separator read)).getD []

def atEnd : Reader Unit := fun cursor =>
  if cursor.rest.isEmpty then .ok ((), cursor) else .error (.absent cursor.position)

/-- Succeeds where an element of a list ends, and takes nothing. -/
def atElementEnd : Reader Unit := fun cursor =>
  match cursor.rest with
  | [] => .ok ((), cursor)
  | c :: _ => if c = ',' then .ok ((), cursor) else .error (.absent cursor.position)

def identifier : Reader String := do
  let front ← run1 Text.isIdentifierStart
  let others ← run Text.isIdentifierPart
  return String.ofList (front ++ others)

/-- What a whole text means; the fault says what it should have been. -/
def readAll (what : String) (read : Reader α) (text : String) : Except Fault α :=
  match (do let value ← read; atEnd; return value : Reader α) (Cursor.start text) with
  | .ok (value, _) => .ok value
  | .error stop => .error ((Fault.of (.unparsable text what)).locatedAt stop.position)

end Reader

end ResourceQuery
