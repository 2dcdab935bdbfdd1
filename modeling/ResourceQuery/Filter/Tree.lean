import ResourceQuery.Filter.Basic
/-!
# Filters as trees

The groups of a filter put into each other. Conditions are listed and parameters are written in the
order of the tree, depth first; groups are named by numbers behind the key of the group around them.
-/

namespace ResourceQuery

inductive FilterTree
  | condition (condition : Condition)
  | group (junction : Junction) (items : List FilterTree)

namespace FilterTree

mutual

/-- The conditions in the order of the tree. -/
def conditions : FilterTree → List Condition
  | condition c => [c]
  | group _ items => conditionsOf items

def conditionsOf : List FilterTree → List Condition
  | [] => []
  | item :: rest => item.conditions ++ conditionsOf rest

end

def junctionParameter (key : String) : Junction → List (String × String)
  | .conjunction => []
  | .disjunction => [(key ++ "$", "or")]

mutual

/-- The parameters of a tree that stands under a key. -/
def parameters (key : String) : FilterTree → Except Fault (List (String × String))
  | condition c => do
    let (suffix, values) ← c.encode
    return values.map fun value => (key ++ "$" ++ suffix, value)
  | group junction items => do
    return junctionParameter key junction ++ (← parametersOf key 0 items)

/-- The parameters of items, of which some groups were before. -/
def parametersOf (key : String) (groups : Nat) :
    List FilterTree → Except Fault (List (String × String))
  | [] => .ok []
  | condition c :: rest => do
    let own ← parameters key (condition c)
    return own ++ (← parametersOf key groups rest)
  | group junction items :: rest => do
    let own ← parameters (key ++ "." ++ Numeral.ofNat (groups + 1)) (group junction items)
    return own ++ (← parametersOf key (groups + 1) rest)

end

end FilterTree

namespace Filter

mutual

/-- A group as a tree; groups nest no deeper than the first number says. -/
def treeAt (f : Filter) : Nat → Nat → FilterTree
  | 0, _ => .group .conjunction []
  | depth + 1, number =>
    match f.group? number with
    | some g => .group g.junction (treesAt f depth g.items)
    | none => .group .conjunction []

def treesAt (f : Filter) (depth : Nat) : List FilterItem → List FilterTree
  | [] => []
  | .condition c :: rest => .condition c :: treesAt f depth rest
  | .group number :: rest => treeAt f depth number :: treesAt f depth rest

end

/-- The whole filter as a tree. -/
def tree (f : Filter) : FilterTree := f.treeAt f.groups.length root

def conditions (f : Filter) : List Condition := f.tree.conditions

/-- The filter as parameters under a key. -/
def encode (f : Filter) (key : String) : Except Fault (List (String × String)) := do
  let base := match f.basePath with
    | some path => [(key ++ "@", path.text)]
    | none => []
  return base ++ (← f.tree.parameters key)

end Filter

end ResourceQuery
