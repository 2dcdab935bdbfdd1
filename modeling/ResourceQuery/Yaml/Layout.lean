import ResourceQuery.Yaml.Token
/-!
# The layout of a YAML text

Indentation opens and closes blocks, and a colon makes a key of what stands before it on the line,
so the beginnings of blocks and keys are known only behind the place where they belong. `Layout`
holds what has to be remembered while a text is cut into tokens.
-/

namespace ResourceQuery.Yaml

/-- Where the key of a mapping may have begun. -/
structure KeyStart where
  /-- At this column nothing but a key can stand. -/
  required : Bool
  /-- The number of tokens in front of it. -/
  tokens : Nat
  place : Place
  deriving Repr

structure Layout where
  place : Place
  tokens : Array Token
  /-- The columns of the open blocks, the innermost first. -/
  blocks : List Nat
  /-- The possible beginning of a key for every open bracket, the innermost first, and for what is
  around all brackets. -/
  keys : List (Option KeyStart)
  /-- A key may begin here. -/
  keyAllowed : Bool
  deriving Repr

namespace Layout

/-- The greatest number of characters of a key without an indicator. -/
def keyLength : Nat := 1024

def start (text : List Char) : Layout :=
  let first := Place.start text
  ⟨if first.isAt byteOrderMark then first.skip 1 else first, #[], [], [none], true⟩

/-- The place is inside brackets. -/
def inFlow (l : Layout) : Bool := 1 < l.keys.length

def context (l : Layout) : Context := if l.inFlow then .flow else .block

/-- The column of the innermost block; outside of all blocks it is negative. -/
def indent (l : Layout) : Int :=
  match l.blocks with
  | [] => -1
  | column :: _ => column

def emit (l : Layout) (token : Token) (place : Place) : Layout :=
  { l with tokens := l.tokens.push token, place := place }

/-- Open a block at a column that is deeper than that of the innermost block. Its first token goes
in front of tokens that were read already. -/
def openBlock (l : Layout) (column index : Nat) (token : Token) : Layout :=
  if !l.inFlow && l.indent < column then
    { l with
      blocks := column :: l.blocks
      tokens := l.tokens.insertIdxIfInBounds index token }
  else l

/-- Close all blocks that are deeper than a column. -/
def closeBlocks (l : Layout) (column : Int) : Layout :=
  if l.inFlow then l
  else
    let kept := l.blocks.dropWhile fun block => column < Int.ofNat block
    let ends := List.replicate (l.blocks.length - kept.length) Token.blockEnd
    { l with blocks := kept, tokens := l.tokens ++ ends.toArray }

/-- Give up the beginning of a key, unless a key is required there. -/
def forgetKey (l : Layout) : Option Layout :=
  match l.keys with
  | some key :: outer => if key.required then none else some { l with keys := none :: outer }
  | _ => some l

/-- A key may have begun at this place. -/
def noteKey (l : Layout) : Option Layout :=
  if l.keyAllowed then do
    let l ← l.forgetKey
    let required := !l.inFlow && l.indent = l.place.column
    return { l with keys := some ⟨required, l.tokens.size, l.place⟩ :: l.keys.drop 1 }
  else some l

/-- A key ends in the line it began in, and is not too long. -/
def isStale (l : Layout) (key : KeyStart) : Bool :=
  key.place.line < l.place.line || key.place.index + keyLength < l.place.index

/-- Give up all beginnings of keys that are too far away by now. -/
def forgetStaleKeys (l : Layout) : Option Layout := do
  let keys ← l.keys.mapM fun key =>
    match key with
    | some key =>
      if l.isStale key then (if key.required then none else some none) else some (some key)
    | none => some none
  return { l with keys := keys }

/-- White space and comments in front of a token. A new line may begin with a key. -/
def skipGap (inFlow : Bool) : Nat → Bool → Place → Bool × Place
  | 0, keyAllowed, place => (keyAllowed, place)
  | steps + 1, keyAllowed, place =>
    let place := place.skipWhile fun c => c == ' ' || ((inFlow || !keyAllowed) && c == '\t')
    let place := if place.isAt '#' then place.skipLine else place
    match place.break? with
    | some (_, next) => skipGap inFlow steps (keyAllowed || !inFlow) next
    | none => (keyAllowed, place)

def skipToToken (l : Layout) : Layout :=
  let (keyAllowed, place) := skipGap l.inFlow (l.place.rest.length + 1) l.keyAllowed l.place
  { l with keyAllowed := keyAllowed, place := place }

/-- The end of the text, which closes all blocks. -/
def finish (l : Layout) : Option Layout := do
  let l ← (l.closeBlocks (-1)).forgetKey
  return l.emit .streamEnd l.place

def readDirective (l : Layout) : Option Layout := do
  let l ← (l.closeBlocks (-1)).forgetKey
  let (token, place) ← Yaml.readDirective l.place
  return { l with keyAllowed := false }.emit token place

def readDocumentMark (l : Layout) (token : Token) : Option Layout := do
  let l ← (l.closeBlocks (-1)).forgetKey
  return { l with keyAllowed := false }.emit token (l.place.skip 3)

def openFlow (l : Layout) (token : Token) : Option Layout := do
  let l ← l.noteKey
  return { l with keys := none :: l.keys, keyAllowed := true }.emit token (l.place.skip 1)

def closeFlow (l : Layout) (token : Token) : Option Layout := do
  let l ← l.forgetKey
  let keys := if l.inFlow then l.keys.drop 1 else l.keys
  return { l with keys := keys, keyAllowed := false }.emit token (l.place.skip 1)

def readComma (l : Layout) : Option Layout := do
  let l ← l.forgetKey
  return { l with keyAllowed := true }.emit .comma (l.place.skip 1)

/-- Open a block at an indicator, which stands where a key may begin. -/
def openAtIndicator (l : Layout) (token : Token) : Option Layout :=
  if l.inFlow then some l
  else if l.keyAllowed then some (l.openBlock l.place.column l.tokens.size token)
  else none

def readEntry (l : Layout) : Option Layout := do
  let l ← (← l.openAtIndicator .blockSequence).forgetKey
  return { l with keyAllowed := true }.emit .entry (l.place.skip 1)

def readKey (l : Layout) : Option Layout := do
  let l ← (← l.openAtIndicator .blockMapping).forgetKey
  return { l with keyAllowed := !l.inFlow }.emit .key (l.place.skip 1)

/-- A colon makes a key of what began on the line, or stands for itself. -/
def readValue (l : Layout) : Option Layout := do
  match l.keys with
  | some key :: outer =>
    let l := { l with
      tokens := l.tokens.insertIdxIfInBounds key.tokens .key
      keys := none :: outer
      keyAllowed := false }
    return (l.openBlock key.place.column key.tokens .blockMapping).emit .value (l.place.skip 1)
  | _ =>
    let l ← l.openAtIndicator .blockMapping
    return { l with keyAllowed := !l.inFlow }.emit .value (l.place.skip 1)

def readAnchor (l : Layout) (token : String → Token) : Option Layout := do
  let l ← l.noteKey
  let (name, place) ← readAnchorName (l.place.skip 1)
  return { l with keyAllowed := false }.emit (token name) place

def readTag (l : Layout) : Option Layout := do
  let l ← l.noteKey
  let (handle, suffix, place) ← Yaml.readTag l.place
  if place.isGapAt 0 || (l.inFlow && place.isAt ',') then
    return { l with keyAllowed := false }.emit (.tag handle suffix) place
  else none

def readBlockScalar (l : Layout) (style : Style) : Option Layout := do
  let l ← l.forgetKey
  let (text, place) ← readBlock (style == .literal) l.indent l.place
  return { l with keyAllowed := true }.emit (.scalar style (String.ofList text)) place

def readQuotedScalar (l : Layout) (quote : Char) : Option Layout := do
  let l ← l.noteKey
  let (text, place) ← readQuoted quote l.place
  return { l with keyAllowed := false }.emit (.scalar .quoted (String.ofList text)) place

def readPlainScalar (l : Layout) : Option Layout := do
  let l ← l.noteKey
  let (text, place, hasBreak) ← readPlain l.context (l.indent + 1).toNat l.place
  return { l with keyAllowed := hasBreak }.emit (.scalar .plain (String.ofList text)) place

/-- Characters that no plain scalar begins with, unless for the rule in `beginsPlain`. -/
def indicators : List Char :=
  ['-', '?', ':', ',', '[', ']', '\x7b', '\x7d', '#', '&', '*', '!', '|', '>', '\'', '"', '%', '@',
    '`']

/-- A dash, and outside of brackets a question mark or a colon, may begin a plain scalar if no white
space follows. -/
def beginsPlain (l : Layout) (c : Char) : Bool :=
  if c = '-' then !(l.place.ahead? 1).any isBlank
  else if c = '?' ∨ c = ':' then !l.inFlow && !l.place.isGapAt 1
  else !isBlank c && !indicators.contains c

/-- The token that a character begins. -/
def readTokenAt (l : Layout) (c : Char) : Option Layout :=
  if l.place.column = 0 ∧ c = '%' then l.readDirective
  else if l.place.isMark '-' then l.readDocumentMark .documentStart
  else if l.place.isMark '.' then l.readDocumentMark .documentEnd
  else if c = '[' then l.openFlow .flowSequence
  else if c = '\x7b' then l.openFlow .flowMapping
  else if c = ']' then l.closeFlow .flowSequenceEnd
  else if c = '\x7d' then l.closeFlow .flowMappingEnd
  else if c = ',' then l.readComma
  else if c = '-' ∧ l.place.isGapAt 1 then l.readEntry
  else if c = '?' ∧ (l.inFlow ∨ l.place.isGapAt 1) then l.readKey
  else if c = ':' ∧ (l.inFlow ∨ l.place.isGapAt 1) then l.readValue
  else if c = '*' then l.readAnchor .alias
  else if c = '&' then l.readAnchor .anchor
  else if c = '!' then l.readTag
  else if c = '|' ∧ !l.inFlow then l.readBlockScalar .literal
  else if c = '>' ∧ !l.inFlow then l.readBlockScalar .folded
  else if c = '\'' ∨ c = '"' then l.readQuotedScalar c
  else if l.beginsPlain c then l.readPlainScalar
  else none

/-- The tokens up to the end of the text. Every token but the last takes a character at least. -/
def readTokens : Nat → Layout → Option Layout
  | 0, _ => none
  | steps + 1, l => do
    let l ← l.skipToToken.forgetStaleKeys
    let l := l.closeBlocks l.place.column
    match l.place.next? with
    | none => l.finish
    | some c => readTokens steps (← l.readTokenAt c)

end Layout

/-- The tokens of a text. -/
def Token.ofText? (text : String) : Option (List Token) := do
  let chars := text.toList
  if !chars.all isAllowed then none
  return (← Layout.readTokens (chars.length + 2) (Layout.start chars)).tokens.toList

end ResourceQuery.Yaml
