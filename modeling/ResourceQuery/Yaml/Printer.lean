import ResourceQuery.Json.Basic
import ResourceQuery.Text.Piece
import ResourceQuery.Yaml.Tree
/-!
# Printing YAML

Documents in block style, two columns a level; sequences are not indented below their name. A text
is written plainly if it reads back as the same text, otherwise in quotes, and a text of several
lines as a literal block. `TextTraits` says which of these ways are open.
-/

namespace ResourceQuery.Yaml

/-- A character that need not be escaped. -/
def isPrintable (c : Char) : Bool :=
  let n := c.toNat
  n == 0x0A || (0x20 ≤ n && n ≤ 0x7E) || (0xA0 ≤ n && n ≤ 0xD7FF)
    || (0xE000 ≤ n && n ≤ 0xFFFD && n != 0xFEFF) || 0x10000 ≤ n

/-- The largest number that is told from a text. -/
def wideBound : Nat := 0x100000000000000000000000000000000

/-- A text that would be read as an integer. -/
def readsAsInteger (text : List Char) : Bool :=
  match text with
  | '-' :: rest =>
    match baseDigits? rest with
    | some (base, digits) => (valueInBase? base digits).any fun n => decide (n ≤ wideBound / 2)
    | none => !isZeroPadded rest && (valueInBase? 10 rest).isSome
  | _ => (readNatural? text).any fun n => decide (n < wideBound)

def infinityWords : List String := [".inf", ".Inf", ".INF"]

def undefinedWords : List String := [".nan", ".NaN", ".NAN"]

/-- A text that would be read as a binary number. -/
def readsAsDouble (text : List Char) : Bool :=
  let plain := match text with
    | '+' :: rest => rest
    | _ => text
  if plain.length < text.length ∧ plain.head?.any (fun c => c == '+' || c == '-') then false
  else
    infinityWords.contains (String.ofList plain)
      || infinityWords.any (fun word => ("-" ++ word).toList == text)
      || undefinedWords.contains (String.ofList text)
      || match (Binary.read (String.ofList plain) : Except Binary.Flaw Double) with
        | .ok x => x.isFinite
        | .error _ => false

/-- The text behind a sign. -/
def unsigned : List Char → List Char
  | '+' :: rest => rest
  | '-' :: rest => rest
  | text => text

/-- Without quotes the text would be read as something else than a text. -/
def isAmbiguous (text : String) : Bool :=
  text.isEmpty || missingWords.contains text || (readTruth? text).isSome
    || readsAsInteger text.toList || isZeroPadded (unsigned text.toList)
    || readsAsDouble text.toList

/-- What bears on how a text may be written. -/
structure TextTraits where
  /-- Some character or sequence of characters has a meaning of its own. -/
  hasIndicator : Bool
  hasSpecial : Bool
  hasBreak : Bool
  /-- A blank or a break at one of the ends. -/
  hasOuterGap : Bool
  endsInSpace : Bool
  spaceBehindBreak : Bool
  spaceBeforeBreak : Bool

namespace TextTraits

def firstIndicators : List Char :=
  ['#', ',', '[', ']', '\x7b', '\x7d', '&', '*', '!', '|', '>', '\'', '"', '%', '@', '`']

def isGap (c : Option Char) : Bool :=
  match c with
  | some c => isBlank c || isBreak c
  | none => true

/-- An indicator behind the first character of a text. -/
def hasInnerIndicator : List Char → Bool
  | c :: d :: rest =>
    (d == ':' && isGap rest.head?) || (d == '#' && isGap (some c)) || hasInnerIndicator (d :: rest)
  | _ => false

def hasFirstIndicator (text : List Char) : Bool :=
  text.take 3 == ['-', '-', '-'] || text.take 3 == ['.', '.', '.']
    || match text with
      | [] => false
      | c :: rest =>
        firstIndicators.contains c
          || ((c == '?' || c == ':' || c == '-') && isGap rest.head?)

/-- Two neighbours of certain kinds. -/
def hasNeighbours (first second : Char → Bool) : List Char → Bool
  | c :: d :: rest => (first c && second d) || hasNeighbours first second (d :: rest)
  | _ => false

def isSpace (c : Char) : Bool := c == ' '

def of (text : List Char) : TextTraits :=
  let isOuter (c : Option Char) : Bool := c.any fun c => isSpace c || isBreak c
  { hasIndicator := hasFirstIndicator text || hasInnerIndicator text
    hasSpecial := text.any fun c => !isPrintable c
    hasBreak := text.any isBreak
    hasOuterGap := isOuter text.head? || isOuter text.getLast?
    endsInSpace := text.getLast?.any isSpace
    spaceBehindBreak := hasNeighbours isBreak isSpace text
    spaceBeforeBreak := hasNeighbours isSpace isBreak text }

def allowsPlain (t : TextTraits) : Bool :=
  !t.hasIndicator && !t.hasSpecial && !t.hasBreak && !t.hasOuterGap

def allowsSingleQuotes (t : TextTraits) : Bool :=
  !t.hasSpecial && !t.spaceBehindBreak && !t.spaceBeforeBreak

def allowsLiteral (t : TextTraits) : Bool :=
  !t.hasSpecial && !t.endsInSpace && !t.spaceBeforeBreak

end TextTraits

def hexDigits (width n : Nat) : List Char :=
  (List.range width).reverse.map fun i => (Nat.digitChar (n / 16 ^ i % 16)).toUpper

/-- The letters of characters that have one behind a backslash. -/
def escapeLetters : List (Nat × Char) :=
  [(0x00, '0'), (0x07, 'a'), (0x08, 'b'), (0x09, 't'), (0x0A, 'n'), (0x0B, 'v'), (0x0C, 'f'),
    (0x0D, 'r'), (0x1B, 'e'), (0x22, '"'), (0x5C, '\\'), (0x85, 'N'), (0xA0, '_'), (0x2028, 'L'),
    (0x2029, 'P')]

def escape (c : Char) : List Char :=
  if isPrintable c && !isBreak c && c != '"' && c != '\\' then [c]
  else match escapeLetters.lookup c.toNat with
    | some letter => ['\\', letter]
    | none =>
      if c.toNat ≤ 0xFF then '\\' :: 'x' :: hexDigits 2 c.toNat
      else if c.toNat ≤ 0xFFFF then '\\' :: 'u' :: hexDigits 4 c.toNat
      else '\\' :: 'U' :: hexDigits 8 c.toNat

def doubleQuoted (text : List Char) : List Char := '"' :: text.flatMap escape ++ ['"']

def blanks (count : Nat) : List Char := List.replicate count ' '

/-- The text with every new line that is not empty moved to a column. -/
def indentLines (column : Nat) (atStart : Bool) : List Char → List Char
  | [] => []
  | c :: rest =>
    if isBreak c then c :: indentLines column true rest
    else (if atStart then blanks column else []) ++ c :: indentLines column false rest

def singleQuoted (column : Nat) (text : List Char) : List Char :=
  let doubled := text.flatMap fun c => if c = '\'' then ['\'', '\''] else [c]
  '\'' :: indentLines column false (doubled ++ ['\''])

/-- What the header of a literal block says about the breaks at its end. -/
def chompingMark (text : List Char) : List Char :=
  match text.reverse with
  | last :: rest =>
    if !isBreak last then ['-']
    else match rest with
      | [] => ['+']
      | c :: _ => if isBreak c then ['+'] else []
  | [] => ['-']

/-- A literal block. The last break of the text is the one that ends the block. -/
def literal (column : Nat) (text : List Char) : List Char :=
  let mark := if text.head?.any fun c => c == ' ' || isBreak c then ['2'] else []
  let body := match text.reverse with
    | '\n' :: rest => rest.reverse
    | _ => text
  '|' :: mark ++ chompingMark text ++ '\n' :: indentLines column true body

/-- A text, whose further lines begin at a column. -/
def textLines (column : Nat) (text : String) : String :=
  let chars := text.toList
  let traits := TextTraits.of chars
  let quoted :=
    if traits.allowsSingleQuotes then singleQuoted column chars else doubleQuoted chars
  String.ofList
    (if chars.contains '\n' then
      (if traits.allowsLiteral then literal column chars else doubleQuoted chars)
    else if !isAmbiguous text && traits.allowsPlain then chars
    else quoted)

/-- A value that takes no lines of its own. -/
def inlineText (column : Nat) : Json → String
  | .null => "null"
  | .bool b => if b then "true" else "false"
  | .number n => n.text
  | .string s => textLines column s
  | .array _ => "[]"
  | .object _ => "\x7b\x7d"

def newLine (column : Nat) : String := String.ofList ('\n' :: blanks column)

mutual

/-- A value that begins at a column. -/
def blockText (column : Nat) : Json → String
  | .array (item :: rest) => Text.join (newLine column) (itemTexts column (item :: rest))
  | .object (member :: rest) => Text.join (newLine column) (memberTexts column (member :: rest))
  | leaf => inlineText column leaf

def itemTexts (column : Nat) : List Json → List String
  | [] => []
  | .array (inner :: more) :: rest =>
    ("- " ++ blockText (column + 2) (.array (inner :: more))) :: itemTexts column rest
  | .object (inner :: more) :: rest =>
    ("- " ++ blockText (column + 2) (.object (inner :: more))) :: itemTexts column rest
  | leaf :: rest => ("- " ++ inlineText (column + 2) leaf) :: itemTexts column rest

def memberTexts (column : Nat) : List (String × Json) → List String
  | [] => []
  | (name, .array (inner :: more)) :: rest =>
    (name ++ ":" ++ newLine column ++ blockText column (.array (inner :: more)))
      :: memberTexts column rest
  | (name, .object (inner :: more)) :: rest =>
    (name ++ ":" ++ newLine (column + 2) ++ blockText (column + 2) (.object (inner :: more)))
      :: memberTexts column rest
  | (name, leaf) :: rest =>
    (name ++ ": " ++ inlineText (column + 2) leaf) :: memberTexts column rest

end

/-- A document whose members have identifiers for names. -/
def print (document : Json) : String := blockText 0 document ++ "\n"

end ResourceQuery.Yaml
