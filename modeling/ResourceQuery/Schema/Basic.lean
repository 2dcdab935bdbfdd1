import ResourceQuery.Schema.Container
/-!
# Schemas

All containers, in the order of their declarations.
-/

namespace ResourceQuery

structure Schema where
  containers : List Container
  deriving DecidableEq, Repr

namespace Schema

def empty : Schema := ⟨[]⟩

def container? (s : Schema) (name : String) : Option Container :=
  s.containers.find? fun c => c.name == name

def container (s : Schema) (name : String) : Except Fault Container :=
  match s.container? name with
  | some c => .ok c
  | none => .error (Fault.of (.unknownContainer name))

theorem container_eq_ok_iff {s : Schema} {name : String} {c : Container} :
    s.container name = .ok c ↔ s.container? name = some c := by
  rw [container]
  cases s.container? name <;> simp

/-- The container of a resource type. -/
def resource (s : Schema) (name : String) : Except Fault Container := do
  let c ← s.container name
  if c.isResource then return c else throw (Fault.of (.type name .notResource))

def resources (s : Schema) : List Container := s.containers.filter Container.isResource

/-- The properties of the named container are stored. -/
def holdsPersistentData (s : Schema) (name : String) : Bool :=
  match s.container? name with
  | some c => c.holdsPersistentData
  | none => false

end Schema

end ResourceQuery
