import ResourceQuery.Calendar.Date
import ResourceQuery.Numeral.Digits
import ResourceQuery.Text.Blank
/-!
# Instants

Points of time in universal time, to the nanosecond. A leap second is the last second of a minute
with a second of nanoseconds more; it is written as second 60.

A timestamp has a date, a time with seconds and an offset; the written form always has offset `Z`
and as many digits of the fraction, in groups of three, as are needed. A plain day stands for its
midnight.
-/

namespace ResourceQuery

structure Instant where
  date : Date
  second : Nat
  nano : Nat
  deriving DecidableEq, Repr

namespace Instant

def secondsPerDay : Nat := 86400

def nanosPerSecond : Nat := 1000000000

def midnight (date : Date) : Instant := ⟨date, 0, 0⟩

/-- The instant a number of seconds earlier, less than a day in either direction. -/
def earlier (t : Instant) (seconds : Int) : Instant :=
  let s := (t.second : Int) - seconds
  if s < 0 then { t with date := t.date.previous, second := (s + secondsPerDay).toNat }
  else if s < secondsPerDay then { t with second := s.toNat }
  else { t with date := t.date.next, second := (s - secondsPerDay).toNat }

/-- Four digits, with a sign and maybe more digits outside the years 0 to 9999. -/
def yearText (year : Int) : List Char :=
  if 0 ≤ year ∧ year ≤ 9999 then Numeral.padded 4 year.toNat
  else (if year < 0 then '-' else '+') :: Numeral.padded 4 year.natAbs

def fractionText (nano : Nat) : List Char :=
  if nano = 0 then []
  else if nano % 1000000 = 0 then '.' :: Numeral.padded 3 (nano / 1000000)
  else if nano % 1000 = 0 then '.' :: Numeral.padded 6 (nano / 1000)
  else '.' :: Numeral.padded 9 nano

def toText (t : Instant) : String :=
  let second := t.second % 60 + t.nano / nanosPerSecond
  String.ofList (yearText t.date.year ++ '-' :: Numeral.padded 2 t.date.month ++ '-' ::
    Numeral.padded 2 t.date.day ++ 'T' :: Numeral.padded 2 (t.second / 3600) ++ ':' ::
    Numeral.padded 2 (t.second / 60 % 60) ++ ':' :: Numeral.padded 2 second ++
    fractionText (t.nano % nanosPerSecond) ++ ['Z'])

/-- A fixed number of digits in front of a text. -/
def takeDigits (count : Nat) (text : List Char) : Option (Nat × List Char) :=
  let front := text.take count
  if front.length = count ∧ front.all Char.isDigit then some (Numeral.value front, text.drop count)
  else none

def takeChar (c : Char) : List Char → Option (List Char)
  | [] => none
  | d :: rest => if d = c then some rest else none

/-- Nanoseconds from the digits behind a point; digits after the ninth are dropped. -/
def readFraction (text : List Char) : Option (Nat × List Char) :=
  match text with
  | '.' :: rest =>
    let (fraction, rest) := Numeral.spanDigits rest
    if fraction.isEmpty then none
    else
      let kept := fraction.take 9
      some (Numeral.value kept * 10 ^ (9 - kept.length), rest)
  | rest => some (0, rest)

/-- Seconds east of universal time: `Z`, or a sign with hours and minutes. -/
def readOffset (text : List Char) : Option Int :=
  match text with
  | ['Z'] => some 0
  | ['z'] => some 0
  | c :: rest => do
    let negative ←
      if c = '+' then some false else if c = '-' ∨ c = '\u2212' then some true else none
    let (hours, rest) ← takeDigits 2 rest
    let rest ← takeChar ':' rest
    let (minutes, rest) ← takeDigits 2 rest
    if rest.isEmpty ∧ hours ≤ 23 ∧ minutes ≤ 59 then
      let seconds : Int := (hours * 60 + minutes) * 60
      some (if negative then -seconds else seconds)
    else none
  | [] => none

/-- A timestamp with seconds and an offset. -/
def readTimestamp? (text : String) : Option Instant := do
  let (year, rest) ← takeDigits 4 text.toList
  let rest ← takeChar '-' rest
  let (month, rest) ← takeDigits 2 rest
  let rest ← takeChar '-' rest
  let (day, rest) ← takeDigits 2 rest
  let rest ← match rest with
    | c :: rest => if c = 'T' ∨ c = 't' ∨ c = ' ' then some rest else none
    | [] => none
  let (hour, rest) ← takeDigits 2 rest
  let rest ← takeChar ':' rest
  let (minute, rest) ← takeDigits 2 rest
  let rest ← takeChar ':' rest
  let (second, rest) ← takeDigits 2 rest
  let (nano, rest) ← readFraction rest
  let offset ← readOffset rest
  let date : Date := ⟨year, month, day⟩
  if date.isValid ∧ hour ≤ 23 ∧ minute ≤ 59 ∧ second ≤ 60 then
    let leap := second = 60
    let clock : Instant :=
      ⟨date, hour * 3600 + minute * 60 + (if leap then 59 else second),
        nano + (if leap then nanosPerSecond else 0)⟩
    some (clock.earlier offset)
  else none

/-- One to `width` digits, after white space. -/
def takeNumber (width : Nat) (text : List Char) : Option (Nat × List Char) :=
  let text := Text.trimStart text
  let front := (text.take width).takeWhile Char.isDigit
  if front.isEmpty then none else some (Numeral.value front, text.drop front.length)

/-- A year of at most four digits, or of any length behind a sign. -/
def takeYear (text : List Char) : Option (Int × List Char) :=
  match Text.trimStart text with
  | c :: rest =>
    if c = '-' ∨ c = '+' then
      let (front, rest) := Numeral.spanDigits rest
      if front.isEmpty then none
      else
        let year : Int := Numeral.value front
        some (if c = '-' then -year else year, rest)
    else (takeNumber 4 (c :: rest)).map fun (year, rest) => ((year : Int), rest)
  | [] => none

/-- A plain day, year, month and day with dashes between them. -/
def readDay? (text : String) : Option Instant := do
  let (year, rest) ← takeYear text.toList
  let rest ← takeChar '-' rest
  let (month, rest) ← takeNumber 2 rest
  let rest ← takeChar '-' rest
  let (day, rest) ← takeNumber 2 rest
  let date : Date := ⟨year, month, day⟩
  if rest.isEmpty ∧ date.isValid then some (midnight date) else none

/-- A timestamp or a plain day. -/
def read? (text : String) : Option Instant := (readTimestamp? text).orElse fun _ => readDay? text

end Instant

end ResourceQuery
