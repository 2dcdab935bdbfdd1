/-!
# Places in a YAML text

Where reading stands, with what is left of the text. Six characters break a line, and a carriage
return with a line feed behind it is one break. Read breaks become line feeds, except for the two
separators of Unicode, which stay what they are.
-/

namespace ResourceQuery.Yaml

def isBlank (c : Char) : Bool := c == ' ' || c == '\t'

def isBreak (c : Char) : Bool :=
  c == '\n' || c == '\r' || c == '\u0085' || c == '\u2028' || c == '\u2029'

/-- The characters that a text may hold. -/
def isAllowed (c : Char) : Bool :=
  let n := c.toNat
  c == '\t' || c == '\n' || c == '\r' || (0x20 ≤ n && n ≤ 0x7E) || n == 0x85
    || (0xA0 ≤ n && n ≤ 0xD7FF) || (0xE000 ≤ n && n ≤ 0xFFFD) || 0x10000 ≤ n

def byteOrderMark : Char := '\uFEFF'

structure Place where
  rest : List Char
  index : Nat
  line : Nat
  column : Nat
  deriving Repr

namespace Place

def start (text : List Char) : Place := ⟨text, 0, 0, 0⟩

/-- The place behind some characters of the line. -/
def skip (p : Place) (count : Nat) : Place :=
  ⟨p.rest.drop count, p.index + count, p.line, p.column + count⟩

/-- The place at the beginning of the next line. -/
def nextLine (p : Place) (count : Nat) : Place :=
  ⟨p.rest.drop count, p.index + count, p.line + 1, 0⟩

/-- The line break here, if there is one, as it is read, and the place behind it. -/
def break? (p : Place) : Option (Char × Place) :=
  match p.rest with
  | '\r' :: '\n' :: _ => some ('\n', p.nextLine 2)
  | c :: _ =>
    if c = '\u2028' ∨ c = '\u2029' then some (c, p.nextLine 1)
    else if isBreak c then some ('\n', p.nextLine 1)
    else none
  | [] => none

def next? (p : Place) : Option Char := p.rest.head?

/-- The character some places ahead. -/
def ahead? (p : Place) (count : Nat) : Option Char := p.rest[count]?

/-- Some places ahead there is white space or the end of the text. -/
def isGapAt (p : Place) (count : Nat) : Bool :=
  match p.ahead? count with
  | some c => isBlank c || isBreak c
  | none => true

def isAt (p : Place) (c : Char) : Bool := p.next? == some c

def atBlank (p : Place) : Bool := p.next?.any isBlank

def atBreak (p : Place) : Bool := p.next?.any isBreak

def atEnd (p : Place) : Bool := p.rest.isEmpty

/-- The place behind all following characters of a class, which holds no line break. -/
def skipWhile (p : Place) (inClass : Char → Bool) : Place :=
  p.skip (p.rest.takeWhile inClass).length

/-- The rest of a line, without its break. -/
def skipLine (p : Place) : Place := p.skipWhile fun c => !isBreak c

/-- A document mark, three times the same character, stands alone at the beginning of a line. -/
def isMark (p : Place) (c : Char) : Bool :=
  p.column == 0 && p.rest.take 3 == [c, c, c] && p.isGapAt 3

def atDocumentMark (p : Place) : Bool := p.isMark '-' || p.isMark '.'

end Place

end ResourceQuery.Yaml
