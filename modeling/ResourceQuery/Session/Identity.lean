import ResourceQuery.Value
/-!
# Identities

Objects with an identifier that were read before, by the property path they were read at and their
identity. The same object read again takes over what it lacks, and both are the same value.
-/

namespace ResourceQuery

/-- The property names on the way to where reading stands, the innermost one last. -/
structure Context where
  labels : List String
  deriving DecidableEq, Repr

namespace Context

def separator : String := "/"

/-- The key of a local name. -/
def key (c : Context) (name : String) : String := Text.join separator (c.labels ++ [name])

def depth (c : Context) : Nat := c.labels.length

end Context

structure IdentityCache where
  context : Context
  entries : NameMap Value
  /-- How often an object was known already. -/
  hits : Nat

namespace IdentityCache

def empty : IdentityCache := ⟨⟨[]⟩, [], 0⟩

def enter (c : IdentityCache) (label : String) : IdentityCache :=
  { c with context := ⟨c.context.labels ++ [label]⟩ }

def exit (c : IdentityCache) : IdentityCache := { c with context := ⟨c.context.labels.dropLast⟩ }

def get? (c : IdentityCache) (name : String) : Option Value :=
  c.entries.find? (c.context.key name)

/-- An object takes over the properties it lacks; any other value stays as it is. -/
def merge (old new : Value) : Value :=
  match old.instance?, new.instance? with
  | some old, some new => .ofInstance (old.mergeMissing new)
  | _, _ => old

/-- The known value under a name, or the given one from now on. -/
def intern (c : IdentityCache) (name : String) (value : Value) : Value × IdentityCache :=
  let key := c.context.key name
  match c.entries.find? key with
  | some old =>
    let merged := merge old value
    (merged, { c with entries := c.entries.insert key merged, hits := c.hits + 1 })
  | none => (value, { c with entries := c.entries.insert key value })

end IdentityCache

end ResourceQuery
