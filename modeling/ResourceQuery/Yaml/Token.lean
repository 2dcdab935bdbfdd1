import ResourceQuery.Text.Octets
import ResourceQuery.Yaml.Scalar
/-!
# YAML tokens

The pieces of a text: marks and brackets, the beginnings and ends of blocks that the indentation
tells, and scalars, tags, anchors and directives with what they hold.
-/

namespace ResourceQuery.Yaml

/-- How a scalar is written. -/
inductive Style
  | plain
  | quoted
  | literal
  | folded
  deriving DecidableEq, Repr

inductive Token
  | streamEnd
  | versionDirective (major minor : Nat)
  | tagDirective (handle start : String)
  | documentStart
  | documentEnd
  | blockSequence
  | blockMapping
  | blockEnd
  | flowSequence
  | flowSequenceEnd
  | flowMapping
  | flowMappingEnd
  | entry
  | comma
  | key
  | value
  | alias (name : String)
  | anchor (name : String)
  | tag (handle suffix : String)
  | scalar (style : Style) (text : String)
  deriving DecidableEq, Repr

/-- The characters of anchors, tag handles and directive names. -/
def isWordPart (c : Char) : Bool := c.isAlphanum || c == '_' || c == '-'

/-- The word at a place and the place behind it. -/
def takeWord (place : Place) : List Char × Place :=
  (place.rest.takeWhile isWordPart, place.skipWhile isWordPart)

/-- The name of an anchor or an alias, behind its indicator. -/
def readAnchorName (place : Place) : Option (String × Place) :=
  let (name, after) := takeWord place
  let isEnded := after.isGapAt 0
    || after.next?.any fun c => ['?', ':', ',', ']', '\x7d', '%', '@', '`'].contains c
  if name.isEmpty || !isEnded then none else some (String.ofList name, after)

/-- The handle of a tag: `!`, `!!` or a word between two exclamation marks. Outside of a directive
the second mark may be missing. -/
def readTagHandle (inDirective : Bool) (place : Place) : Option (List Char × Place) :=
  if !place.isAt '!' then none
  else
    let (name, after) := takeWord (place.skip 1)
    if after.isAt '!' then some ('!' :: name ++ ['!'], after.skip 1)
    else if inDirective && !name.isEmpty then none
    else some ('!' :: name, after)

def isUriPart (wide : Bool) (c : Char) : Bool :=
  isWordPart c || [';', '/', '?', ':', '@', '&', '=', '+', '$', '.', '!', '~', '*', '\'', '(',
    ')'].contains c || (wide && [',', '[', ']'].contains c)

/-- The octets that percent signs with two digits stand for. -/
def readOctets : Nat → List UInt8 → Place → Option (List UInt8 × Place)
  | 0, read, place => some (read.reverse, place)
  | steps + 1, read, place =>
    match place.rest with
    | '%' :: high :: low :: _ => do
      let octet := UInt8.ofNat (16 * (← Numeral.hexValue? high) + (← Numeral.hexValue? low))
      readOctets steps (octet :: read) (place.skip 3)
    | '%' :: _ => none
    | _ => some (read.reverse, place)

/-- The text of a tag, behind what was read of it already. -/
def readUri (wide : Bool) : Nat → List Char → Place → Option (List Char × Place)
  | 0, read, place => some (read, place)
  | steps + 1, read, place => do
    if place.isAt '%' then
      let (octets, after) ← readOctets (place.rest.length + 1) [] place
      let text := Text.ofOctets octets
      if text.contains Text.replacement then none
      else readUri wide steps (read ++ text) after
    else
      let text := place.rest.takeWhile (isUriPart wide)
      if text.isEmpty then some (read, place)
      else readUri wide steps (read ++ text) (place.skip text.length)

def readWholeUri (wide : Bool) (place : Place) : Option (List Char × Place) := do
  let (uri, after) ← readUri wide (place.rest.length + 1) [] place
  if uri.isEmpty then none else some (uri, after)

/-- The handle and the suffix of a tag, from its exclamation mark on. -/
def readTag (place : Place) : Option (String × String × Place) :=
  if place.ahead? 1 = some '<' then do
    let (uri, after) ← readWholeUri true (place.skip 2)
    if after.isAt '>' then some ("", String.ofList uri, after.skip 1) else none
  else do
    let (handle, after) ← readTagHandle false place
    if 1 < handle.length && handle.getLast? = some '!' then
      let (suffix, after) ← readWholeUri false after
      some (String.ofList handle, String.ofList suffix, after)
    else
      let (suffix, after) ← readUri false (after.rest.length + 1) (handle.drop 1) after
      if suffix.isEmpty then some ("", "!", after)
      else some ("!", String.ofList suffix, after)

/-- A part of a version number. -/
def readVersionPart (place : Place) : Option (Nat × Place) :=
  let digits := place.rest.takeWhile Char.isDigit
  if digits.isEmpty || 9 < digits.length then none
  else some (digits.foldl (fun n c => 10 * n + (c.toNat - 48)) 0, place.skip digits.length)

/-- What a directive says, behind its name. -/
def readDirectiveValue (name : List Char) (place : Place) : Option (Token × Place) := do
  if name = "YAML".toList then
    let (major, place) ← readVersionPart (place.skipWhile isBlank)
    if !place.isAt '.' then none
    let (minor, place) ← readVersionPart (place.skip 1)
    some (.versionDirective major minor, place)
  else if name = "TAG".toList then
    let (handle, place) ← readTagHandle true (place.skipWhile isBlank)
    if !place.atBlank then none
    let (start, place) ← readWholeUri true (place.skipWhile isBlank)
    if !place.isGapAt 0 then none
    some (.tagDirective (String.ofList handle) (String.ofList start), place)
  else none

/-- A directive, from its percent sign to the end of its line. -/
def readDirective (place : Place) : Option (Token × Place) := do
  let (name, place) := takeWord (place.skip 1)
  if name.isEmpty || !place.isGapAt 0 then none
  let (directive, place) ← readDirectiveValue name place
  let place := place.skipWhile isBlank
  let place := if place.isAt '#' then place.skipLine else place
  if place.atEnd then some (directive, place)
  else
    let (_, next) ← place.break?
    some (directive, next)

end ResourceQuery.Yaml
