import ResourceQuery.NameMap
/-!
# Access rules

Who may do what with a property. A rule is declared as a list of roles, where `*` stands for
everyone and `authenticated` for anyone with a name; an empty list denies access. Operations
without a rule are open to everyone.
-/

namespace ResourceQuery

inductive Operation
  | see
  | submit
  | load
  | persist
  | update
  | delete
  deriving DecidableEq, Repr

namespace Operation

def all : List Operation := [see, submit, load, persist, update, delete]

def name : Operation → String
  | see => "see"
  | submit => "submit"
  | load => "load"
  | persist => "persist"
  | update => "update"
  | delete => "delete"

def ofName? (name : String) : Option Operation := all.find? fun op => op.name == name

/-- The place in the order of operations. -/
def rank : Operation → Nat
  | see => 0
  | submit => 1
  | load => 2
  | persist => 3
  | update => 4
  | delete => 5

end Operation

/-- On whose behalf values are read or written. -/
structure Principal where
  name : Option String
  roles : NameSet
  deriving DecidableEq, Repr

inductive Access
  | everyone
  | nobody
  | authenticated
  | roles (names : NameSet)
  deriving DecidableEq, Repr

namespace Access

def everyoneRole : String := "*"

def authenticatedRole : String := "authenticated"

/-- The rule of a declared list of roles. -/
def ofRoles (declared : List String) : Access :=
  if declared.isEmpty then nobody
  else if declared.contains everyoneRole then everyone
  else if declared.contains authenticatedRole then authenticated
  else roles (NameSet.ofList declared)

def permits : Access → Principal → Bool
  | everyone, _ => true
  | nobody, _ => false
  | authenticated, p => p.name.isSome
  | roles names, p => names.any p.roles.contains

end Access

/-- Declared roles by operation, in the order of operations. -/
abbrev RoleTable := List (Operation × List String)

namespace RoleTable

/-- Declare the roles of an operation, replacing an earlier declaration. -/
def insert (op : Operation) (declared : List String) : RoleTable → RoleTable
  | [] => [(op, declared)]
  | (key, old) :: rest =>
    if op.rank < key.rank then (op, declared) :: (key, old) :: rest
    else if key = op then (op, declared) :: rest
    else (key, old) :: insert op declared rest

end RoleTable

structure AccessRules where
  rules : List (Operation × Access)
  deriving DecidableEq, Repr

namespace AccessRules

def ofTable (table : RoleTable) : AccessRules :=
  ⟨table.map fun (op, declared) => (op, Access.ofRoles declared)⟩

def rule (a : AccessRules) (op : Operation) : Access := (a.rules.lookup op).getD .everyone

/-- Without a principal the caller is trusted. -/
def permits (a : AccessRules) (op : Operation) : Option Principal → Bool
  | some p => (a.rule op).permits p
  | none => true

/-- The operation is denied to everyone. -/
def denies (a : AccessRules) (op : Operation) : Bool := a.rule op == .nobody

end AccessRules

end ResourceQuery
