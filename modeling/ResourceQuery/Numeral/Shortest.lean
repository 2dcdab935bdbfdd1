import ResourceQuery.Numeral.Binary
import ResourceQuery.Numeral.Digits
/-!
# Shortest decimals

The decimal with the fewest digits among those that round to a given binary value; of two with
equally few digits the nearer one. `reads` is the interval of the decimals that round to the value:
its ends lie half way to the neighbours and belong to it when the significand is even.
-/

namespace ResourceQuery.Binary

/-- A number of the form digits · 10^exponent. -/
structure Scientific where
  digits : Nat
  exponent : Int
  deriving DecidableEq, Repr

/-- Where an exact tie between two decimals goes. -/
inductive Tie
  | up
  | even
  deriving DecidableEq, Repr

/-- Compare a · 10^i with b · 2^j. -/
def compareScaled (a : Nat) (i : Int) (b : Nat) (j : Int) : Ordering :=
  compare (a * 10 ^ i.toNat * 2 ^ (-j).toNat) (b * 2 ^ j.toNat * 10 ^ (-i).toNat)

/-- The decimal lies among the numbers that round to significand · 2^exponent. -/
def reads (f : Format) (significand : Nat) (exponent : Int) (d : Scientific) : Bool :=
  let narrow := significand == 2 ^ (f.precision - 1) && f.minExponent < exponent
  let low := 4 * significand - (if narrow then 1 else 2)
  let high := 4 * significand + 2
  let closed := significand % 2 == 0
  let fromLow := compareScaled d.digits d.exponent low (exponent - 2)
  let fromHigh := compareScaled d.digits d.exponent high (exponent - 2)
  (fromLow == .gt || (closed && fromLow == .eq)) && (fromHigh == .lt || (closed && fromHigh == .eq))

/-- The least k with significand · 2^exponent < 10^k, for a positive significand. -/
def scale (significand : Nat) (exponent : Int) : Int :=
  let bits : Int := (significand.log2 : Int) + exponent
  let guess := bits * 30103 / 100000
  ([guess - 1, guess, guess + 1, guess + 2].find? fun k =>
    compareScaled 1 k significand exponent == .gt).getD (guess + 3)

/-- The decimal on the grid 10^k that reads back, the nearer one if both neighbours do. -/
def onGrid (f : Format) (tie : Tie) (significand : Nat) (exponent k : Int) : Option Scientific :=
  let (num, den) := (significand * 2 ^ exponent.toNat * 10 ^ (-k).toNat,
    2 ^ (-exponent).toNat * 10 ^ k.toNat)
  let below : Scientific := ⟨num / den, k⟩
  let above : Scientific := ⟨num / den + 1, k⟩
  let readsBack := reads f significand exponent
  match decide (0 < below.digits) && readsBack below, readsBack above with
  | true, true =>
    match compare (2 * (num % den)) den with
    | .lt => some below
    | .gt => some above
    | .eq => if tie = .even ∧ below.digits % 2 = 0 then some below else some above
  | true, false => some below
  | false, true => some above
  | false, false => none

/-- The exact decimal of significand · 2^exponent. -/
def exact (significand : Nat) (exponent : Int) : Scientific :=
  if 0 ≤ exponent then ⟨significand * 2 ^ exponent.toNat, 0⟩
  else ⟨significand * 5 ^ (-exponent).toNat, exponent⟩

/-- Zeros at the end of the digits moved into the exponent. -/
def stripZeros : Nat → Scientific → Scientific
  | 0, d => d
  | fuel + 1, d =>
    if d.digits ≠ 0 ∧ d.digits % 10 = 0 then stripZeros fuel ⟨d.digits / 10, d.exponent + 1⟩ else d

/-- The shortest decimal of a positive value; seventeen digits always suffice. -/
def shortest (f : Format) (tie : Tie) (significand : Nat) (exponent : Int) : Scientific :=
  let k := scale significand exponent
  let found := (List.range 17).findSome? fun (n : Nat) =>
    onGrid f tie significand exponent (k - 1 - n)
  let d := found.getD (exact significand exponent)
  stripZeros (d.digits.log2 + 1) d

end ResourceQuery.Binary
