import ResourceQuery.Path.Basic
/-!
# Listed references

References whose targets are returned next to the result instead of inside the records. With a path
all references on the way to it are listed.
-/

namespace ResourceQuery

structure References where
  resourceType : String
  /-- Paths with the types they point to, a wildcard for any type. -/
  paths : NameMap String
  deriving DecidableEq, Repr

namespace References

/-- No reference at all. -/
def none (s : Schema) (resourceType : String) : Except Fault References := do
  return ⟨(← s.resource resourceType).name, []⟩

def add (s : Schema) (r : References) (path : String) : Except Fault References := do
  let resolved ← Path.resolve s r.resourceType path
  let property ← resolved.terminal
  if !property.type.isReference then throw (Fault.of (.use path .notReference))
  let crossed := resolved.prefixes.filterMap fun (text, step) =>
    (step.property?.bind fun p => p.type.target?).map fun target => (text, target.name)
  return { r with paths := crossed.foldl (fun m entry => m.insert entry.1 entry.2) r.paths }

def contains (r : References) (path : String) : Bool := NameMap.contains path r.paths

def target? (r : References) (path : String) : Option String := r.paths.find? path

def isEmpty (r : References) : Bool := r.paths.isEmpty

def encode (r : References) : String := Text.join "," (NameMap.keys r.paths)

end References

end ResourceQuery
