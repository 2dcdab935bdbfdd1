import ResourceQuery.Numeral.Digits
/-!
# Whole numbers of four widths

Signed integers of one, two, four and eight octets. A text is an optional sign and digits; the
digits are looked at from the left, and the first one that is no digit or leaves the range decides
the flaw.
-/

namespace ResourceQuery

inductive Width
  | byte
  | short
  | integer
  | long
  deriving DecidableEq, Repr

namespace Width

def bits : Width → Nat
  | byte => 8
  | short => 16
  | integer => 32
  | long => 64

def least (w : Width) : Int := -(2 ^ (w.bits - 1) : Nat)

def greatest (w : Width) : Int := (2 ^ (w.bits - 1) : Nat) - 1

def name : Width → String
  | byte => "byte"
  | short => "short"
  | integer => "integer"
  | long => "long"

end Width

/-- An integer that fits its width. -/
structure Whole (w : Width) where
  value : Int
  inRange : w.least ≤ value ∧ value ≤ w.greatest
  deriving DecidableEq

namespace Whole

variable {w : Width}

def ofInt? (w : Width) (n : Int) : Option (Whole w) :=
  if h : w.least ≤ n ∧ n ≤ w.greatest then some ⟨n, h⟩ else none

theorem ofInt?_value (n : Whole w) : ofInt? w n.value = some n := by
  simp [ofInt?, n.inRange]

inductive Flaw
  | empty
  | badDigit
  | tooLarge
  | tooSmall
  deriving DecidableEq, Repr

def Flaw.message : Flaw → String
  | empty => "cannot parse integer from empty string"
  | badDigit => "invalid digit found in string"
  | tooLarge => "number too large to fit in target type"
  | tooSmall => "number too small to fit in target type"

/-- The number of a run of digits, as long as it does not pass a bound. -/
def readDigits (bound : Nat) (beyond : Flaw) : Nat → List Char → Except Flaw Nat
  | n, [] => .ok n
  | n, c :: rest =>
    if c.isDigit then
      let next := 10 * n + Numeral.digitValue c
      if next ≤ bound then readDigits bound beyond next rest else .error beyond
    else .error .badDigit

/-- Digits behind an optional sign; a sign alone is no number. -/
def readSigned (greatest : Nat) (below : Nat) (text : List Char) : Except Flaw Int :=
  match text with
  | [] => .error .empty
  | ['+'] => .error .badDigit
  | ['-'] => .error .badDigit
  | '-' :: rest => (readDigits below .tooSmall 0 rest).map fun n => -(n : Int)
  | '+' :: rest => (readDigits greatest .tooLarge 0 rest).map Int.ofNat
  | rest => (readDigits greatest .tooLarge 0 rest).map Int.ofNat

def read (w : Width) (text : String) : Except Flaw (Whole w) := do
  let n ← readSigned w.greatest.toNat (-w.least).toNat text.toList
  match ofInt? w n with
  | some value => .ok value
  | none => .error (if n < 0 then .tooSmall else .tooLarge)

def toText (n : Whole w) : String := Numeral.ofInt n.value

end Whole

/-- A natural number up to a bound: digits behind an optional plus sign. -/
def Numeral.readNat? (bound : Nat) (text : String) : Option Nat :=
  match text.toList with
  | [] => none
  | ['+'] => none
  | '+' :: rest => (Whole.readDigits bound .tooLarge 0 rest).toOption
  | rest => (Whole.readDigits bound .tooLarge 0 rest).toOption

end ResourceQuery
