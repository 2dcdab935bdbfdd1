/-!
# Positions in a parameter text

Every element of a query parameter remembers where it stands, so that a fault can point at it.
An offset counts bytes of the encoded text from zero; lines and columns count from one.
-/

namespace ResourceQuery

structure Position where
  offset : Nat
  line : Nat
  column : Nat
  deriving DecidableEq, Repr

namespace Position

/-- The first character of a text. -/
def start : Position := ⟨0, 1, 1⟩

/-- No place at all; a known position has a positive line. -/
def unknown : Position := ⟨0, 0, 0⟩

def isUnknown (p : Position) : Bool := p.line == 0

/-- The position behind a character: a line feed opens the next line. -/
def advance (p : Position) (c : Char) : Position :=
  if c = '\n' then ⟨p.offset + c.utf8Size, p.line + 1, 1⟩
  else ⟨p.offset + c.utf8Size, p.line, p.column + 1⟩

/-- The line is named only when there is more than one. -/
def describe (p : Position) : String :=
  if p.line = 0 then "(unknown position)"
  else if p.line = 1 then "position " ++ toString p.column
  else "line " ++ toString p.line ++ ", position " ++ toString p.column

end Position

end ResourceQuery
