import ResourceQuery.Numeral.Digits
import ResourceQuery.Text.Octets
import ResourceQuery.Text.Piece
/-!
# Form encoding

Pairs of names and values as a query string. Letters, digits and the four signs `*-._` stand for
themselves, a blank becomes a plus sign, and every other octet is written as a percent sign with
two hexadecimal digits. Reading accepts more than writing produces: empty pieces are skipped, a
piece without an equals sign has an empty value, and a percent sign without two hexadecimal digits
behind it stands for itself.
-/

namespace ResourceQuery.Text.Form

def isPlain (b : UInt8) : Bool :=
  (0x30 ≤ b && b ≤ 0x39) || (0x41 ≤ b && b ≤ 0x5A) || (0x61 ≤ b && b ≤ 0x7A)
    || b == 0x2A || b == 0x2D || b == 0x2E || b == 0x5F

def capitalDigit (n : Nat) : Char := (Nat.digitChar n).toUpper

def octetValue? (b : UInt8) : Option Nat := Numeral.hexValue? (Char.ofNat b.toNat)

def encodeOctet (b : UInt8) : List Char :=
  if isPlain b then [Char.ofNat b.toNat]
  else if b = 0x20 then ['+']
  else ['%', capitalDigit (b.toNat / 16), capitalDigit (b.toNat % 16)]

def encode (text : List Char) : List Char := (toOctets text).flatMap encodeOctet

/-- Octets with plus signs and percent escapes undone. -/
def unescape : List UInt8 → List UInt8
  | [] => []
  | b :: rest =>
    if b = 0x2B then 0x20 :: unescape rest
    else if b = 0x25 then
      match rest with
      | high :: low :: after =>
        match octetValue? high, octetValue? low with
        | some h, some l => UInt8.ofNat (16 * h + l) :: unescape after
        | _, _ => b :: unescape (high :: low :: after)
      | [low] => [b] ++ unescape [low]
      | [] => [b]
    else b :: unescape rest

def decode (text : List Char) : List Char := ofOctets (unescape (toOctets text))

/-- The pairs of a query string, in the order they are written. -/
def parse (query : List Char) : List (List Char × List Char) :=
  ((split '&' query).filter fun piece => !piece.isEmpty).map fun piece =>
    match splitFirst '=' piece with
    | some (name, value) => (decode name, decode value)
    | none => (decode piece, [])

def print (pairs : List (List Char × List Char)) : List Char :=
  joinChars '&' (pairs.map fun (name, value) => encode name ++ '=' :: encode value)

end ResourceQuery.Text.Form
