import ResourceQuery.Numeral.Power
/-!
# Binary floating point numbers

Numbers of the form ±m · 2^e with a bounded significand and exponent, rounded to the nearest value,
halves to the even significand. A value is kept decoded: `finite` holds the significand and the
exponent of its last bit, with all bits of the precision in use wherever the exponent allows it.
-/

namespace ResourceQuery

namespace Binary

/-- The bits of a significand and the exponents of its last bit. -/
structure Format where
  precision : Nat
  minExponent : Int
  maxExponent : Int
  deriving DecidableEq, Repr

def Format.single : Format := ⟨24, -149, 104⟩

def Format.double : Format := ⟨53, -1074, 971⟩

end Binary

inductive Binary (f : Binary.Format)
  | finite (negative : Bool) (significand : Nat) (exponent : Int)
  | infinite (negative : Bool)
  | nan
  deriving DecidableEq, Repr

abbrev Single := Binary .single

abbrev Double := Binary .double

namespace Binary

variable {f g : Format}

def zero (negative : Bool) : Binary f := .finite negative 0 f.minExponent

/-- The quotient of two naturals to the nearest integer, a half to the even one. -/
def roundQuotient (num den : Nat) : Nat :=
  let q := num / den
  match compare (2 * (num % den)) den with
  | .lt => q
  | .gt => q + 1
  | .eq => if q % 2 = 0 then q else q + 1

/-- The quotient num / (den · 2^e) as a quotient of naturals. -/
def scaled (num den : Nat) (e : Int) : Nat × Nat := (num * 2 ^ (-e).toNat, den * 2 ^ e.toNat)

/-- The exponent of the last bit of num / den when all bits of the precision are in use. -/
def lastBit (f : Format) (num den : Nat) : Int :=
  let guess : Int := (num.log2 : Int) - den.log2 - f.precision
  let (n, d) := scaled num den guess
  if n / d < 2 ^ f.precision then guess else guess + 1

/-- The value of the format nearest to the quotient of two naturals. -/
def ofRatio (negative : Bool) (num den : Nat) : Binary f :=
  if num = 0 then zero negative
  else
    let e := max (lastBit f num den) f.minExponent
    let (n, d) := scaled num den e
    let m := roundQuotient n d
    let (m, e) := if m = 2 ^ f.precision then (2 ^ (f.precision - 1), e + 1) else (m, e)
    if f.maxExponent < e then .infinite negative else .finite negative m e

/-- The magnitude of a finite value as a quotient of naturals. -/
def ratio (significand : Nat) (exponent : Int) : Nat × Nat := scaled significand 1 (-exponent)

/-- The nearest value of another format. -/
def convert : Binary f → Binary g
  | finite negative m e => ofRatio negative (ratio m e).1 (ratio m e).2
  | infinite negative => .infinite negative
  | nan => .nan

def ofInt (n : Int) : Binary f := ofRatio (n < 0) n.natAbs 1

def isFinite : Binary f → Bool
  | finite .. => true
  | _ => false

def isNegative : Binary f → Bool
  | finite negative .. => negative
  | infinite negative => negative
  | nan => false

def negate : Binary f → Binary f
  | finite negative m e => .finite (!negative) m e
  | infinite negative => .infinite (!negative)
  | nan => .nan

/-- The product of two finite values, rounded once. -/
def multiply : Binary f → Binary f → Binary f
  | finite s m e, finite t n d =>
    let a := ratio m e
    let b := ratio n d
    ofRatio (s != t) (a.1 * b.1) (a.2 * b.2)
  | _, _ => .nan

/-- The quotient of two finite values, rounded once; the divisor is not zero. -/
def divide : Binary f → Binary f → Binary f
  | finite s m e, finite t n d =>
    let a := ratio m e
    let b := ratio n d
    ofRatio (s != t) (a.1 * b.2) (a.2 * b.1)
  | _, _ => .nan

/-- Equality of numbers: both zeros are equal and nothing equals a value that is no number. -/
def equal : Binary f → Binary f → Bool
  | finite s m e, finite t n d => (m == 0 && n == 0) || (s == t && m == n && e == d)
  | infinite s, infinite t => s == t
  | _, _ => false

end Binary

end ResourceQuery
