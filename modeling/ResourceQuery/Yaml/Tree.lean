import ResourceQuery.DocumentTree
import ResourceQuery.Numeral.Digits
import ResourceQuery.Yaml.Node
/-!
# YAML as a tree of declarations

Every scalar is a text. Truth values, numbers and missing values are plain scalars of a certain
spelling; nothing at all is a missing value, an empty list and an empty record.
-/

namespace ResourceQuery.Yaml

def missingWords : List String := ["null", "Null", "NULL", "~"]

def truthWords : List String := ["true", "True", "TRUE"]

def falsityWords : List String := ["false", "False", "FALSE"]

def standardTag (name : String) : String := "tag:yaml.org,2002:" ++ name

def readTruth? (text : String) : Option Bool :=
  if truthWords.contains text then some true
  else if falsityWords.contains text then some false
  else none

/-- The digits of a number that is written in a base, with the letters that announce the base. -/
def baseDigits? : List Char → Option (Nat × List Char)
  | '0' :: 'x' :: rest => some (16, rest)
  | '0' :: 'o' :: rest => some (8, rest)
  | '0' :: 'b' :: rest => some (2, rest)
  | _ => none

/-- The number that digits of a base stand for. -/
def valueInBase? (base : Nat) (text : List Char) : Option Nat :=
  if text.isEmpty then none
  else do
    let digits ← text.mapM Numeral.hexValue?
    if digits.all fun d => decide (d < base) then
      some (digits.foldl (fun n d => base * n + d) 0)
    else none

/-- Digits behind a zero, which are no number. -/
def isZeroPadded (digits : List Char) : Bool :=
  1 < digits.length && digits.head? == some '0' && digits.all Char.isDigit

/-- The natural number that a plain scalar stands for. -/
def readNatural? (text : List Char) : Option Nat :=
  let digits := match text with
    | '+' :: rest => rest
    | _ => text
  match baseDigits? digits with
  | some (base, rest) => valueInBase? base rest
  | none => if isZeroPadded digits then none else valueInBase? 10 digits

namespace Tree

/-- The greatest number of eight octets. -/
def naturalBound : Nat := 0xffffffffffffffff

/-- The node itself, or the one that is pointed to. -/
def target (t : Tree) : Node :=
  match t.node with
  | .alias number => (t.named.lookup number).getD .void
  | node => node

def child (t : Tree) (node : Node) : Tree := ⟨node, t.named⟩

/-- Nothing was written. -/
def isVoid (t : Tree) : Bool :=
  match t.target with
  | .scalar _ .plain text => text.isEmpty
  | _ => false

def isMissing (t : Tree) : Bool :=
  match t.target with
  | .scalar none .plain text => text.isEmpty || missingWords.contains text
  | .scalar (some tag) .plain text => tag == standardTag "null" && missingWords.contains text
  | _ => false

def text? (t : Tree) : Option String :=
  match t.target with
  | .scalar _ _ text => some text
  | _ => none

/-- The text of a scalar that may be more than a text: a plain one, or a literal one whose tag says
so. -/
def typedText? (t : Tree) (type : String) : Option String :=
  match t.target with
  | .scalar _ .plain text => some text
  | .scalar tag .literal text => if tag = some (standardTag type) then some text else none
  | _ => none

def truth? (t : Tree) : Option Bool := (t.typedText? "bool").bind readTruth?

def natural? (t : Tree) : Option Nat :=
  ((t.typedText? "int").bind fun text => readNatural? text.toList).filter fun n =>
    decide (n ≤ naturalBound)

/-- A choice is a text, or a tag on nothing. -/
def choice? (t : Tree) : Option String :=
  match t.target with
  | .scalar (some tag) style text =>
    match tag.toList with
    | '!' :: name =>
      if style = .plain ∧ (text.isEmpty ∨ missingWords.contains text) then
        some (String.ofList name)
      else none
    | _ => some text
  | .scalar none _ text => some text
  | _ => none

def items? (t : Tree) : Option (List Tree) :=
  match t.target with
  | .sequence items => some (items.map t.child)
  | _ => if t.isVoid then some [] else none

def members? (t : Tree) : Option (List (String × Tree)) :=
  match t.target with
  | .mapping entries =>
    entries.mapM fun (key, value) => (t.child key).text?.map fun name => (name, t.child value)
  | _ => if t.isVoid then some [] else none

instance : DocumentTree Tree where
  isMissing := isMissing
  text? := text?
  truth? := truth?
  natural? := natural?
  choice? := choice?
  items? := items?
  members? := members?
  fields? := fun _ => members?

end Tree

end ResourceQuery.Yaml
