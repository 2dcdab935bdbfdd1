import ResourceQuery.Path.Basic
/-!
# Remembered paths

A schema never changes, so a path that was followed once need not be followed again. Failures are
not remembered. `Memo.resolve` answers as `Path.resolve` does, whatever was asked before.
-/

namespace ResourceQuery

/-- Paths by their start and their text. -/
structure Memo where
  paths : List Path

namespace Memo

def empty : Memo := ⟨[]⟩

def find? (m : Memo) (start text : String) : Option Path :=
  m.paths.find? fun p => p.start == start && p.text == text

/-- Follow a path unless it is known. -/
def resolve (m : Memo) (s : Schema) (start text : String) : Except Fault Path × Memo :=
  match m.find? start text with
  | some path => (.ok path, m)
  | none =>
    match Path.resolve s start text with
    | .ok path => (.ok path, ⟨m.paths ++ [path]⟩)
    | .error fault => (.error fault, m)

/-- The number of remembered paths that start at a container. -/
def count (m : Memo) (start : String) : Nat := (m.paths.filter fun p => p.start == start).length

end Memo

end ResourceQuery
