import ResourceQuery.Query.Element
/-!
# Names of filter parameters

The name of a filter parameter says what its values are: `f.1$name,email:lc:prefix!` is a condition
in group `f.1`, `f.1$` the junction of that group, and `recent@` the base path of a filter.
-/

namespace ResourceQuery

/-- A test of one or several properties; of several, one has to pass. -/
structure ConditionText where
  paths : List PathText
  qualifiers : List Qualifier
  negated : Bool
  deriving DecidableEq, Repr

namespace ConditionText

def reader : Reader ConditionText := do
  let paths ← Reader.separated1 ',' PathText.reader
  let qualifiers ← Qualifier.listReader
  let negation ← Reader.optional (Reader.char '!')
  return ⟨paths, qualifiers, negation.isSome⟩

end ConditionText

inductive FilterParameter
  | junction (group : GroupKey)
  | basePath (key : String)
  | condition (group : GroupKey) (text : ConditionText)
  deriving DecidableEq, Repr

namespace FilterParameter

def marker : Reader Char :=
  Reader.orElse (do Reader.char '$'; return '$') (do Reader.char '@'; return '@')

/-- Only a filter as a whole has a base path. -/
def reader : Reader FilterParameter := do
  let group ← GroupKey.reader
  if (← marker) = '@' then
    if group.depth = 1 then return basePath group.root
    else throw (.broken (← Reader.position))
  else match ← Reader.optional ConditionText.reader with
    | some text => return condition group text
    | none => return junction group

def parse (name : String) : Except Fault FilterParameter :=
  Reader.readAll "filter parameter" reader name

/-- The key of the filter that a parameter name is addressed to. -/
def root? (name : String) : Option String :=
  match (do let group ← GroupKey.reader; let _ ← marker; return group : Reader GroupKey)
    (Cursor.start name) with
  | .ok (group, _) => some group.root
  | .error _ => none

end FilterParameter

end ResourceQuery
