import ResourceQuery.Numeral.Digits
import ResourceQuery.Yaml.Place
/-!
# YAML scalars

Reading plain, quoted and block scalars. Inside the first two, white space with a line break in it
is folded: a single break becomes a blank, and of several breaks the first one is dropped.
-/

namespace ResourceQuery.Yaml

/-- White space between two pieces of a scalar: blanks of one line, or line breaks. -/
structure Gap where
  blanks : List Char
  breaks : List Char
  /-- The first break was escaped and leaves no trace. -/
  escaped : Bool
  deriving Repr

namespace Gap

def none (escaped : Bool) : Gap := ⟨[], [], escaped⟩

def hasBreak (g : Gap) : Bool := g.escaped || !g.breaks.isEmpty

/-- What stands for the white space in the scalar. -/
def folded (g : Gap) : List Char :=
  if g.escaped then g.breaks
  else match g.breaks with
    | [] => g.blanks
    | ['\n'] => [' ']
    | '\n' :: more => more
    | breaks => breaks

/-- Read white space. With an indentation, no tab may stand in front of it on a new line. -/
def read (indent : Nat) : Nat → Gap → Place → Option (Gap × Place)
  | 0, gap, place => some (gap, place)
  | steps + 1, gap, place =>
    match place.break? with
    | some (c, next) => read indent steps { gap with breaks := gap.breaks ++ [c] } next
    | Option.none =>
      match place.next? with
      | some c =>
        if !isBlank c then some (gap, place)
        else if gap.hasBreak then
          if c = '\t' ∧ place.column < indent then Option.none
          else read indent steps gap (place.skip 1)
        else read indent steps { gap with blanks := gap.blanks ++ [c] } (place.skip 1)
      | Option.none => some (gap, place)

end Gap

/-- Whether a place is inside brackets. -/
inductive Context
  | block
  | flow
  deriving DecidableEq, Repr

def isFlowBracket (c : Char) : Bool := c == '[' || c == ']' || c == '\x7b' || c == '\x7d'

/-- A colon in brackets that is neither a separator nor part of a plain scalar. -/
def isStrayColon (place : Place) : Bool :=
  place.isAt ':' && (place.ahead? 1).any fun c => c == ',' || c == '?' || isFlowBracket c

/-- A plain scalar ends in front of such a character. -/
def endsPlain (context : Context) (place : Place) (c : Char) : Bool :=
  isBlank c || isBreak c || (c == ':' && place.isGapAt 1)
    || (context == .flow && (c == ',' || isFlowBracket c))

/-- The characters of a plain scalar up to white space or its end. -/
def plainPiece (context : Context) : Nat → List Char → Place → Option (List Char × Place)
  | 0, read, place => some (read.reverse, place)
  | steps + 1, read, place =>
    match place.next? with
    | none => some (read.reverse, place)
    | some c =>
      if context = .flow ∧ isStrayColon place then none
      else if endsPlain context place c then some (read.reverse, place)
      else plainPiece context steps (c :: read) (place.skip 1)

/-- A plain scalar: its text, the place behind it and the white space that follows, and whether that
has a line break. Lines behind the first are indented at least as deep as the number says. -/
def plainFrom (context : Context) (indent : Nat) :
    Nat → List Char → Gap → Place → Option (List Char × Place × Bool)
  | 0, read, gap, place => some (read, place, gap.hasBreak)
  | steps + 1, read, gap, place =>
    if place.atDocumentMark || place.isAt '#' then some (read, place, gap.hasBreak)
    else do
      let (piece, place) ← plainPiece context (place.rest.length + 1) [] place
      let (read, gap) :=
        if piece.isEmpty then (read, gap) else (read ++ gap.folded ++ piece, Gap.none false)
      if !place.atBlank && !place.atBreak then return (read, place, gap.hasBreak)
      let (gap, place) ← Gap.read indent (place.rest.length + 1) gap place
      if context = .block ∧ place.column < indent then return (read, place, gap.hasBreak)
      plainFrom context indent steps read gap place

def readPlain (context : Context) (indent : Nat) (place : Place) :
    Option (List Char × Place × Bool) :=
  plainFrom context indent (place.rest.length + 1) [] (Gap.none false) place

/-- The character that a letter stands for behind a backslash. -/
def escaped? (c : Char) : Option Char :=
  [('0', Char.ofNat 0), ('a', Char.ofNat 7), ('b', Char.ofNat 8), ('t', '\t'), ('\t', '\t'),
    ('n', '\n'), ('v', Char.ofNat 11), ('f', Char.ofNat 12), ('r', '\r'), ('e', Char.ofNat 27),
    (' ', ' '), ('"', '"'), ('/', '/'), ('\\', '\\'), ('N', Char.ofNat 0x85),
    ('_', Char.ofNat 0xA0), ('L', Char.ofNat 0x2028), ('P', Char.ofNat 0x2029)].lookup c

/-- How many hexadecimal digits follow a letter behind a backslash. -/
def escapeLength? (c : Char) : Option Nat := [('x', 2), ('u', 4), ('U', 8)].lookup c

/-- The character that hexadecimal digits stand for. -/
def hexChar? (digits : List Char) : Option Char := do
  let code := (← digits.mapM Numeral.hexValue?).foldl (fun n d => 16 * n + d) 0
  if (0xD800 ≤ code ∧ code ≤ 0xDFFF) ∨ 0x10FFFF < code then none else some (Char.ofNat code)

/-- An escape behind its backslash, and the place behind it. -/
def readEscape (place : Place) : Option (Char × Place) := do
  let c ← place.next?
  match escaped? c with
  | some d => some (d, place.skip 1)
  | none => do
    let length ← escapeLength? c
    let digits := (place.rest.drop 1).take length
    if digits.length < length then none
    else some (← hexChar? digits, place.skip (1 + length))

/-- The characters of a quoted scalar up to white space or its end. The last answer tells of an
escaped line break. -/
def quotedPiece (quote : Char) : Nat → List Char → Place → Option (List Char × Place × Bool)
  | 0, read, place => some (read.reverse, place, false)
  | steps + 1, read, place =>
    match place.next? with
    | none => some (read.reverse, place, false)
    | some c =>
      if isBlank c || isBreak c then some (read.reverse, place, false)
      else if c = quote then
        if quote = '\'' ∧ place.ahead? 1 = some '\'' then
          quotedPiece quote steps ('\'' :: read) (place.skip 2)
        else some (read.reverse, place, false)
      else if quote = '"' ∧ c = '\\' then
        match (place.skip 1).break? with
        | some (_, next) => some (read.reverse, next, true)
        | none => do
          let (d, next) ← readEscape (place.skip 1)
          quotedPiece quote steps (d :: read) next
      else quotedPiece quote steps (c :: read) (place.skip 1)

def quotedFrom (quote : Char) : Nat → List Char → Place → Option (List Char × Place)
  | 0, _, _ => none
  | steps + 1, read, place =>
    if place.atDocumentMark || place.atEnd then none
    else do
      let (piece, place, escapedBreak) ← quotedPiece quote (place.rest.length + 1) [] place
      if place.isAt quote then return (read ++ piece, place.skip 1)
      let (gap, place) ← Gap.read 0 (place.rest.length + 1) (Gap.none escapedBreak) place
      quotedFrom quote steps (read ++ piece ++ gap.folded) place

/-- A quoted scalar, from its first quote to behind its last one. -/
def readQuoted (quote : Char) (place : Place) : Option (List Char × Place) :=
  quotedFrom quote (place.rest.length + 1) [] (place.skip 1)

/-- What becomes of the line breaks at the end of a block scalar. -/
inductive Chomping
  | strip
  | clip
  | keep
  deriving DecidableEq, Repr

def chomping? (c : Char) : Option Chomping :=
  if c = '+' then some .keep else if c = '-' then some .strip else none

/-- A digit of the header of a block scalar; zero is refused. -/
def indentDigit? (place : Place) : Option (Option Nat × Place) :=
  match place.next? with
  | some c =>
    if !c.isDigit then some (none, place)
    else if c = '0' then none
    else some (some (c.toNat - 48), place.skip 1)
  | none => some (none, place)

/-- The chomping and the indentation in the header of a block scalar, in either order. -/
def blockHeader (place : Place) : Option (Chomping × Option Nat × Place) :=
  match place.next?.bind chomping? with
  | some chomping => do
    let (digit, place) ← indentDigit? (place.skip 1)
    some (chomping, digit, place)
  | none => do
    let (digit, place) ← indentDigit? place
    match digit, place.next?.bind chomping? with
    | some n, some chomping => some (chomping, some n, place.skip 1)
    | _, _ => some (.clip, digit, place)

/-- Indentation and empty lines in front of a line of a block scalar. Without a known indentation,
the deepest one met is given back. -/
def blockBreaks (indent : Option Nat) :
    Nat → Nat → List Char → Place → Option (Nat × List Char × Place)
  | 0, deepest, breaks, place => some (deepest, breaks, place)
  | steps + 1, deepest, breaks, place =>
    let blanks := (place.rest.takeWhile fun c => c == ' ').length
    let wanted := match indent with
      | some n => min blanks (n - place.column)
      | none => blanks
    let place := place.skip wanted
    let deepest := max deepest place.column
    let isShort := match indent with
      | some n => decide (place.column < n)
      | none => true
    if isShort && place.isAt '\t' then none
    else match place.break? with
      | some (c, next) => blockBreaks indent steps deepest (breaks ++ [c]) next
      | none => some (deepest, breaks, place)

/-- The lines of a block scalar: what was read, the break behind it, the empty lines behind that,
and whether the last line began with a blank. -/
def blockLines (literal : Bool) (indent : Nat) :
    Nat → List Char → List Char → List Char → Bool → Place →
      Option (List Char × List Char × List Char × Place)
  | 0, read, leading, trailing, _, place => some (read, leading, trailing, place)
  | steps + 1, read, leading, trailing, wasBlank, place =>
    if place.column ≠ indent ∨ place.atEnd then some (read, leading, trailing, place)
    else
      let isBlankLine := place.atBlank
      let fold := !literal && leading.head? == some '\n' && !wasBlank && !isBlankLine
      let joint :=
        if fold then (if trailing.isEmpty then [' '] else trailing) else leading ++ trailing
      let line := place.rest.takeWhile fun c => !isBreak c
      let place := place.skip line.length
      let (leading, place) := match place.break? with
        | some (c, next) => ([c], next)
        | none => ([], place)
      match blockBreaks (some indent) (place.rest.length + 1) 0 [] place with
      | some (_, trailing, place) =>
        blockLines literal indent steps (read ++ joint ++ line) leading trailing isBlankLine place
      | none => none

/-- A block scalar, from its indicator on, inside a block of the given indentation. -/
def readBlock (literal : Bool) (parent : Int) (place : Place) : Option (List Char × Place) := do
  let (chomping, digit, place) ← blockHeader (place.skip 1)
  let place := place.skipWhile isBlank
  let place := if place.isAt '#' then place.skipLine else place
  if !place.atBreak && !place.atEnd then none
  let place := match place.break? with
    | some (_, next) => next
    | none => place
  let declared := digit.map fun n => if 0 ≤ parent then parent.toNat + n else n
  let (deepest, breaks, place) ← blockBreaks declared (place.rest.length + 1) 0 [] place
  let indent := declared.getD (max deepest (max (parent + 1).toNat 1))
  let (read, leading, trailing, place) ←
    blockLines literal indent (place.rest.length + 1) [] [] breaks false place
  let tail := match chomping with
    | .strip => []
    | .clip => leading
    | .keep => leading ++ trailing
  some (read ++ tail, place)

end ResourceQuery.Yaml
