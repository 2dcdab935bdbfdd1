import ResourceQuery.Numeral.Power
/-!
# Digits

Decimal digits of natural numbers. `digits` writes a number without leading zeros and `value`
reads any run of digits. Hexadecimal digits may have small or capital letters.
-/

namespace ResourceQuery.Numeral

def digitValue (c : Char) : Nat := c.toNat - 48

/-- The number that a run of decimal digits stands for. -/
def value (digits : List Char) : Nat := digits.foldl (fun n c => 10 * n + digitValue c) 0

def digits (n : Nat) : List Char := Nat.toDigits 10 n

/-- The longest run of digits in front, and what follows it. -/
def spanDigits (text : List Char) : List Char × List Char := text.span Char.isDigit

/-- The value of a hexadecimal digit. -/
def hexValue? (c : Char) : Option Nat :=
  if c.isDigit then some (c.toNat - 48)
  else if 'a' ≤ c ∧ c ≤ 'f' then some (c.toNat - 87)
  else if 'A' ≤ c ∧ c ≤ 'F' then some (c.toNat - 55)
  else none

/-- An integer with its sign, if negative. -/
def ofInt (n : Int) : String := String.ofList ((if n < 0 then ['-'] else []) ++ digits n.natAbs)

def ofNat (n : Nat) : String := String.ofList (digits n)

/-- Digits with zeros in front up to a least width. -/
def padded (width n : Nat) : List Char :=
  let ds := digits n
  List.replicate (width - ds.length) '0' ++ ds

end ResourceQuery.Numeral
