/-!
# Trees that declarations are read from

Documents come in two notations whose trees differ in what counts as a text, a truth value or a
record. `DocumentTree` says how a tree is looked at; records, options and lists are read the same
way from both. Nothing here depends on a notation, so a document means the same in each.
-/

namespace ResourceQuery

class DocumentTree (ν : Type) where
  /-- The tree stands for a missing value. -/
  isMissing : ν → Bool
  text? : ν → Option String
  truth? : ν → Option Bool
  /-- A natural number of at most eight octets. -/
  natural? : ν → Option Nat
  /-- The name of a choice. -/
  choice? : ν → Option String
  items? : ν → Option (List ν)
  /-- Names with their values, in the order written. -/
  members? : ν → Option (List (String × ν))
  /-- The members of a record whose fields have the given names. -/
  fields? : List String → ν → Option (List (String × ν))

namespace DocumentTree

variable {ν α : Type} [DocumentTree ν]

/-- The known fields of a record. Unknown fields are skipped and no known field may be repeated. -/
def record? (names : List String) (tree : ν) : Option (List (String × ν)) := do
  let members ← fields? names tree
  let known := members.filter fun member => names.contains member.1
  if (known.map Prod.fst).eraseDups.length = known.length then some known else none

def required (name : String) (read : ν → Option α) (fields : List (String × ν)) : Option α := do
  read (← fields.lookup name)

def withDefault (name : String) (default : α) (read : ν → Option α) (fields : List (String × ν)) :
    Option α :=
  match fields.lookup name with
  | some tree => read tree
  | none => some default

/-- A field that may be left out or stand for a missing value. -/
def optional (name : String) (read : ν → Option α) (fields : List (String × ν)) :
    Option (Option α) :=
  match fields.lookup name with
  | some tree => if isMissing tree then some none else (read tree).map some
  | none => some none

def listOf (read : ν → Option α) (tree : ν) : Option (List α) := do
  (← items? tree).mapM read

/-- A choice by its name. -/
def choiceOf (ofName? : String → Option α) (tree : ν) : Option α := do
  ofName? (← choice? tree)

end DocumentTree

end ResourceQuery
