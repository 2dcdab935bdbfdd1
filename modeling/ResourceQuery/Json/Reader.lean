import ResourceQuery.Json.Basic
/-!
# Reading JSON

Documents of the JSON grammar, with at most 127 levels of nesting. A number without point and
exponent is an integer if it fits eight octets, and never if it is a negative zero; every other
number is binary. A binary number starts from at most nineteen or twenty digits of significand, and
is then multiplied or divided by a power of ten, rounding each time; it must not overflow.
-/

namespace ResourceQuery.Json

def maxDepth : Nat := 127

def isSpace (c : Char) : Bool := c == ' ' || c == '\n' || c == '\t' || c == '\r'

def skipSpace (text : List Char) : List Char := text.dropWhile isSpace

def hexUnit (a b c d : Char) : Option Nat := do
  let a ← Numeral.hexValue? a
  let b ← Numeral.hexValue? b
  let c ← Numeral.hexValue? c
  let d ← Numeral.hexValue? d
  some (a * 4096 + b * 256 + c * 16 + d)

def plainEscape (c : Char) : Option Char :=
  if c = '"' ∨ c = '\\' ∨ c = '/' then some c
  else if c = 'b' then some (Char.ofNat 8)
  else if c = 'f' then some (Char.ofNat 12)
  else if c = 'n' then some '\n'
  else if c = 'r' then some '\r'
  else if c = 't' then some '\t'
  else none

/-- The rest of a string behind its opening quote; what was read so far is kept reversed. Surrogate
escapes must come in pairs. -/
def readString (read : List Char) : List Char → Option (String × List Char)
  | [] => none
  | '"' :: rest => some (String.ofList read.reverse, rest)
  | '\\' :: 'u' :: a :: b :: c :: d :: rest => do
    let unit ← hexUnit a b c d
    if unit < 0xD800 ∨ 0xE000 ≤ unit then readString (Char.ofNat unit :: read) rest
    else if 0xDC00 ≤ unit then none
    else match rest with
      | '\\' :: 'u' :: e :: f :: g :: h :: rest => do
        let second ← hexUnit e f g h
        if 0xDC00 ≤ second ∧ second < 0xE000 then
          readString
            (Char.ofNat (0x10000 + (unit - 0xD800) * 0x400 + (second - 0xDC00)) :: read) rest
        else none
      | _ => none
  | '\\' :: c :: rest => do readString ((← plainEscape c) :: read) rest
  | c :: rest => if c.toNat < 32 then none else readString (c :: read) rest

/-- The greatest significand that is collected before further digits are dropped. -/
def significandBound : Nat := 0xffffffffffffffff

/-- Collect digits into a significand while it stays within its bound: the significand, the digits
taken, and the digits that found no place. -/
def collect (significand : Nat) (taken : Nat) : List Char → Nat × Nat × List Char
  | [] => (significand, taken, [])
  | c :: rest =>
    let next := 10 * significand + Numeral.digitValue c
    if next ≤ significandBound then collect next (taken + 1) rest
    else (significand, taken, c :: rest)

def powerOfTen (n : Nat) : Double := Binary.ofRatio false (10 ^ n) 1

/-- Scale a value by a power of ten, in steps of at most 308. -/
private def scaleBy : Nat → Double → Int → Option Double
  | 0, _, _ => none
  | steps + 1, x, exponent =>
    if exponent.natAbs ≤ 308 then
      if 0 ≤ exponent then
        let y := x.multiply (powerOfTen exponent.natAbs)
        if y.isFinite then some y else none
      else some (x.divide (powerOfTen exponent.natAbs))
    else if x.equal (Binary.zero false) then some x
    else if 0 ≤ exponent then none
    else scaleBy steps (x.divide (powerOfTen 308)) (exponent + 308)

/-- The binary number of a significand and a power of ten. -/
def fromParts (negative : Bool) (significand : Nat) (exponent : Int) : Option Double :=
  (scaleBy 8 (Binary.ofInt significand) exponent).map fun x => if negative then x.negate else x

/-- An exponent behind its mark: a sign and digits, and what follows. -/
private def readPower (text : List Char) : Option (Int × List Char) :=
  let (negative, rest) := match text with
    | '-' :: rest => (true, rest)
    | '+' :: rest => (false, rest)
    | rest => (false, rest)
  let (ds, rest) := Numeral.spanDigits rest
  if ds.isEmpty then none
  else some (if negative then -(Numeral.value ds : Int) else Numeral.value ds, rest)

/-- An exponent beyond this magnitude decides a number at once. -/
private def exponentBound : Nat := 0x7fffffff

private def finish (negative : Bool) (significand : Nat) (start exponent : Int) : Option Double :=
  if exponentBound < exponent.natAbs then
    if significand ≠ 0 ∧ 0 < exponent then none else some (Binary.zero negative)
  else if significand = 0 then some (Binary.zero negative)
  else if start + exponent < -1400 then some (Binary.zero negative)
  else fromParts negative significand (start + exponent)

/-- A number, with what follows it. -/
def readNumber (text : List Char) : Option (Number × List Char) := do
  let (negative, text) := match text with
    | '-' :: rest => (true, rest)
    | rest => (false, rest)
  let (whole, rest) := Numeral.spanDigits text
  if whole.isEmpty then none
  if whole.length > 1 ∧ whole.head? = some '0' then none
  let (significand, _, dropped) := collect 0 0 whole
  let (fraction, rest) ← match rest with
    | '.' :: rest =>
      let (ds, rest) := Numeral.spanDigits rest
      if ds.isEmpty then none else some (some ds, rest)
    | rest => some (none, rest)
  let (exponent, rest) ← match rest with
    | c :: more =>
      if c = 'e' ∨ c = 'E' then (readPower more).map fun (e, rest) => (some e, rest)
      else some (none, rest)
    | [] => some (none, [])
  match fraction, exponent with
  | none, none =>
    if dropped.isEmpty then
      if negative then
        if significand ≠ 0 ∧ significand ≤ 0x8000000000000000 then
          some (.integer (-significand), rest)
        else (fromParts true significand 0).map fun x => (.double x, rest)
      else some (.integer significand, rest)
    else (fromParts negative significand dropped.length).map fun x => (.double x, rest)
  | _, _ =>
    let (significand, taken, _) := collect significand 0 (fraction.getD [])
    let start : Int := (dropped.length : Int) - taken
    (finish negative significand start (exponent.getD 0)).map fun x => (.double x, rest)

def expect (word : List Char) (value : Json) (text : List Char) :
    Option (Json × List Char) :=
  if word.isPrefixOf text then some (value, text.drop word.length) else none

mutual

/-- A value, with what follows it. The first number bounds the steps, the second the levels left. -/
def readValue : Nat → Nat → List Char → Option (Json × List Char)
  | 0, _, _ => none
  | fuel + 1, depth, text =>
    match skipSpace text with
    | [] => none
    | '"' :: rest => (readString [] rest).map fun (s, rest) => (.string s, rest)
    | '[' :: rest =>
      match depth with
      | 0 => none
      | depth + 1 =>
        match skipSpace rest with
        | ']' :: rest => some (.array [], rest)
        | rest => readItems fuel depth [] rest
    | '\x7b' :: rest =>
      match depth with
      | 0 => none
      | depth + 1 =>
        match skipSpace rest with
        | '\x7d' :: rest => some (.object [], rest)
        | rest => readMembers fuel depth [] rest
    | c :: rest =>
      if c = 't' then expect ['r', 'u', 'e'] (.bool true) rest
      else if c = 'f' then expect ['a', 'l', 's', 'e'] (.bool false) rest
      else if c = 'n' then expect ['u', 'l', 'l'] .null rest
      else (readNumber (c :: rest)).map fun (n, rest) => (.number n, rest)

/-- The items of an array up to its closing bracket. -/
def readItems : Nat → Nat → List Json → List Char → Option (Json × List Char)
  | 0, _, _, _ => none
  | fuel + 1, depth, items, text => do
    let (item, rest) ← readValue fuel depth text
    match skipSpace rest with
    | ',' :: rest => readItems fuel depth (item :: items) rest
    | ']' :: rest => some (.array (item :: items).reverse, rest)
    | _ => none

/-- The members of an object up to its closing brace. -/
def readMembers : Nat → Nat → List (String × Json) → List Char → Option (Json × List Char)
  | 0, _, _, _ => none
  | fuel + 1, depth, members, text =>
    match skipSpace text with
    | '"' :: rest => do
      let (name, rest) ← readString [] rest
      match skipSpace rest with
      | ':' :: rest => do
        let (value, rest) ← readValue fuel depth rest
        match skipSpace rest with
        | ',' :: rest => readMembers fuel depth ((name, value) :: members) rest
        | '\x7d' :: rest => some (.object ((name, value) :: members).reverse, rest)
        | _ => none
      | _ => none
    | _ => none

end

/-- The document that a whole text holds. Each step reads a character at least. -/
def parse? (text : String) : Option Json :=
  let chars := text.toList
  match readValue (2 * chars.length + 2) maxDepth chars with
  | some (value, rest) => if (skipSpace rest).isEmpty then some value else none
  | none => none

end ResourceQuery.Json
