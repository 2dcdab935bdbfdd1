import ResourceQuery.Numeral.Digits
/-!
# Decimals

Exact decimal numbers: a mantissa below 2^96 with at most 28 digits behind the point. The number of
places is kept, so 1.5 and 1.50 are equal numbers with different texts. Zero has no sign.
-/

namespace ResourceQuery

structure Decimal where
  negative : Bool
  mantissa : Nat
  scale : Nat
  deriving DecidableEq, Repr

namespace Decimal

def mantissaBound : Nat := 0x1000000000000000000000000

def maxScale : Nat := 28

/-- Both mantissas on the finer scale. -/
def equal (a b : Decimal) : Bool :=
  a.negative == b.negative && a.mantissa * 10 ^ b.scale == b.mantissa * 10 ^ a.scale

def make (negative : Bool) (mantissa scale : Nat) : Decimal :=
  ⟨negative && mantissa != 0, mantissa, scale⟩

def toText (d : Decimal) : String :=
  let ds := Numeral.padded (d.scale + 1) d.mantissa
  let whole := ds.take (ds.length - d.scale)
  let fraction := ds.drop (ds.length - d.scale)
  String.ofList ((if d.negative then ['-'] else []) ++ whole
    ++ (if d.scale = 0 then [] else '.' :: fraction))

/-- Where reading stands: the digits so far, whether the point was seen, the places behind it. -/
structure Progress where
  mantissa : Nat
  point : Bool
  scale : Nat
  started : Bool

/-- Round half up on the first digit that has no place; the digits behind it have no effect. -/
def roundAt (p : Progress) (c : Char) : Option (Nat × Nat) :=
  if c.isDigit then
    if 5 ≤ Numeral.digitValue c then
      if p.mantissa + 1 < mantissaBound then some (p.mantissa + 1, p.scale)
      else if p.scale = 0 then none
      else some ((p.mantissa + 5) / 10, p.scale - 1)
    else some (p.mantissa, p.scale)
  else if c = '_' ∨ c = '.' then some (p.mantissa, p.scale)
  else none

/-- Digits with one point; underscores may stand behind the first digit. -/
def readDigits (p : Progress) : List Char → Option (Nat × Nat)
  | [] => if p.started then some (p.mantissa, p.scale) else none
  | c :: rest =>
    if p.started ∧ p.point ∧ p.scale = maxScale then roundAt p c
    else if c.isDigit then
      let next := 10 * p.mantissa + Numeral.digitValue c
      if next < mantissaBound then
        readDigits ⟨next, p.point, if p.point then p.scale + 1 else 0, true⟩ rest
      else if p.point then roundAt p c else none
    else if c = '.' ∧ !p.point then readDigits { p with point := true } rest
    else if c = '_' ∧ p.started then readDigits p rest
    else none

/-- An optional sign and digits. -/
def readPlain (text : List Char) : Option Decimal :=
  let (negative, body) := match text with
    | '-' :: rest => (true, rest)
    | '+' :: rest => (false, rest)
    | rest => (false, rest)
  (readDigits ⟨0, false, 0, false⟩ body).map fun (mantissa, scale) => make negative mantissa scale

/-- Move the point: to the right by a positive exponent, to the left by a negative one. -/
def shift (d : Decimal) (negative : Bool) (places : Nat) : Option Decimal :=
  if negative then
    if d.scale + places ≤ maxScale then some { d with scale := d.scale + places } else none
  else if places ≤ d.scale then some { d with scale := d.scale - places }
  else if places ≤ maxScale then
    let mantissa := d.mantissa * 10 ^ (places - d.scale)
    if mantissa < mantissaBound then some ⟨d.negative, mantissa, 0⟩ else none
  else none

def isExponentMark (c : Char) : Bool := c == 'e' || c == 'E'

def readPlaces (text : List Char) : Option (Bool × Nat) :=
  let (negative, body) := match text with
    | '-' :: rest => (true, rest)
    | '+' :: rest => (false, rest)
    | rest => (false, rest)
  if body.isEmpty || !body.all Char.isDigit then none else some (negative, Numeral.value body)

def read? (text : String) : Option Decimal :=
  let (base, tail) := text.toList.span fun c => !isExponentMark c
  match tail with
  | [] => readPlain base
  | _ :: exponent => do
    let d ← readPlain base
    let (negative, places) ← readPlaces exponent
    shift d negative places

end Decimal

end ResourceQuery
