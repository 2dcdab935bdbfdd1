import ResourceQuery.Numeral.Shortest
/-!
# Texts of binary numbers

Two ways to write a binary number, both with the fewest digits that read back, and one way to read
it. The positional form never has an exponent and no point behind a whole number. The data form
always shows that the number is not an integer, and has an exponent from 10^16 on and below 10^-5.
-/

namespace ResourceQuery.Binary

variable {f : Format}

/-- Digits with the point at its place, and nothing behind the point of a whole number. -/
def Scientific.positional (d : Scientific) : List Char :=
  let ds := Numeral.digits d.digits
  if 0 ≤ d.exponent then ds ++ List.replicate d.exponent.toNat '0'
  else
    let places := (-d.exponent).toNat
    if places < ds.length then
      ds.take (ds.length - places) ++ '.' :: ds.drop (ds.length - places)
    else ['0', '.'] ++ List.replicate (places - ds.length) '0' ++ ds

def sign (negative : Bool) : List Char := if negative then ['-'] else []

/-- The positional form; an exact tie between two shortest decimals goes up. -/
def positional : Binary f → String
  | .nan => "NaN"
  | .infinite negative => String.ofList (sign negative ++ ['i', 'n', 'f'])
  | .finite negative 0 _ => String.ofList (sign negative ++ ['0'])
  | .finite negative m e =>
    String.ofList (sign negative ++ (shortest f .up m e).positional)

/-- The digits with a point behind the first one, and an exponent with its sign. -/
def exponential (d : Scientific) : List Char :=
  let ds := Numeral.digits d.digits
  let e := d.exponent + ds.length - 1
  let mantissa := match ds with
    | [] => []
    | [c] => [c]
    | c :: rest => c :: '.' :: rest
  mantissa ++ 'e' :: (if e < 0 then '-' else '+') :: Numeral.digits e.natAbs

/-- The data form of a finite number; an exact tie goes to the even digit. -/
def dataText : Binary f → String
  | .nan => "null"
  | .infinite _ => "null"
  | .finite negative 0 _ => String.ofList (sign negative ++ ['0', '.', '0'])
  | .finite negative m e =>
    let d := shortest f .even m e
    let lead := d.exponent + (Numeral.digits d.digits).length - 1
    let body :=
      if lead < -5 ∨ 16 ≤ lead then exponential d
      else if 0 ≤ d.exponent then d.positional ++ ['.', '0']
      else d.positional
    String.ofList (sign negative ++ body)

inductive Flaw
  | empty
  | malformed
  deriving DecidableEq, Repr

def Flaw.message : Flaw → String
  | empty => "cannot parse float from empty string"
  | malformed => "invalid float literal"

/-- The value nearest to digits · 10^exponent. Exponents far outside the format decide at once. -/
def ofScientific (negative : Bool) (digits : Nat) (exponent : Int) : Binary f :=
  let lead := exponent + (Numeral.digits digits).length
  if digits = 0 ∨ lead < -400 then zero negative
  else if 400 < lead then .infinite negative
  else ofRatio negative (digits * 10 ^ exponent.toNat) (10 ^ (-exponent).toNat)

/-- An exponent: a sign and at least one digit, and nothing behind it. -/
def readExponent (text : List Char) : Option Int :=
  let (negative, rest) := match text with
    | '-' :: rest => (true, rest)
    | '+' :: rest => (false, rest)
    | rest => (false, rest)
  if rest.isEmpty || !rest.all Char.isDigit then none
  else some (if negative then -(Numeral.value rest : Int) else Numeral.value rest)

/-- Digits with an optional point and exponent; one digit at least, on either side of the point. -/
def readDecimal (negative : Bool) (text : List Char) : Option (Binary f) := do
  let (whole, rest) := Numeral.spanDigits text
  let (fraction, rest) := match rest with
    | '.' :: rest => Numeral.spanDigits rest
    | rest => ([], rest)
  if whole.isEmpty && fraction.isEmpty then none
  let exponent ← match rest with
    | [] => some 0
    | c :: rest => if c = 'e' ∨ c = 'E' then readExponent rest else none
  some (ofScientific negative (Numeral.value (whole ++ fraction)) (exponent - fraction.length))

/-- An optional sign and a decimal, or one of three words in any case. -/
def read (text : String) : Except Flaw (Binary f) :=
  match text.toList with
  | [] => .error .empty
  | c :: rest =>
    let (negative, body) :=
      if c = '-' then (true, rest) else if c = '+' then (false, rest) else (false, c :: rest)
    let lower := String.ofList (body.map Char.toLower)
    if lower = "inf" ∨ lower = "infinity" then .ok (.infinite negative)
    else if lower = "nan" then .ok .nan
    else match readDecimal negative body with
      | some x => .ok x
      | none => .error .malformed

end ResourceQuery.Binary
