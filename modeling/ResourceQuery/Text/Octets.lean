/-!
# Octets of a text

Texts travel as UTF-8. Reading octets back never fails: each longest start of a character that is
not continued properly gives one replacement character.
-/

namespace ResourceQuery.Text

/-- The octets of a text in UTF-8. -/
def toOctets (text : List Char) : List UInt8 := text.flatMap String.utf8EncodeChar

def replacement : Char := '\uFFFD'

def isContinuation (b : UInt8) : Bool := 0x80 ≤ b && b ≤ 0xBF

/-- The range of the second octet and the number of octets of a character, by its first octet. -/
def lead (b : UInt8) : Option (UInt8 × UInt8 × Nat) :=
  if 0xC2 ≤ b ∧ b ≤ 0xDF then some (0x80, 0xBF, 2)
  else if b = 0xE0 then some (0xA0, 0xBF, 3)
  else if b = 0xED then some (0x80, 0x9F, 3)
  else if 0xE1 ≤ b ∧ b ≤ 0xEF then some (0x80, 0xBF, 3)
  else if b = 0xF0 then some (0x90, 0xBF, 4)
  else if 0xF1 ≤ b ∧ b ≤ 0xF3 then some (0x80, 0xBF, 4)
  else if b = 0xF4 then some (0x80, 0x8F, 4)
  else none

def low (b : UInt8) (mask : Nat) : Nat := b.toNat % mask

/-- The text of a sequence of octets, with a replacement character for each malformed piece. -/
def ofOctets : List UInt8 → List Char
  | [] => []
  | b :: rest =>
    if b < 0x80 then Char.ofNat b.toNat :: ofOctets rest
    else match lead b with
      | none => replacement :: ofOctets rest
      | some (least, greatest, count) =>
        match rest with
        | c :: afterSecond =>
          if least ≤ c ∧ c ≤ greatest then
            if count = 2 then
              Char.ofNat (low b 0x20 * 0x40 + low c 0x40) :: ofOctets afterSecond
            else match afterSecond with
              | d :: afterThird =>
                if isContinuation d then
                  if count = 3 then
                    Char.ofNat (low b 0x10 * 0x1000 + low c 0x40 * 0x40 + low d 0x40)
                      :: ofOctets afterThird
                  else match afterThird with
                    | e :: afterFourth =>
                      if isContinuation e then
                        Char.ofNat (low b 0x08 * 0x40000 + low c 0x40 * 0x1000 + low d 0x40 * 0x40
                          + low e 0x40) :: ofOctets afterFourth
                      else replacement :: ofOctets (e :: afterFourth)
                    | [] => [replacement]
                else replacement :: ofOctets (d :: afterThird)
              | [] => [replacement]
          else replacement :: ofOctets (c :: afterSecond)
        | [] => [replacement]

end ResourceQuery.Text
