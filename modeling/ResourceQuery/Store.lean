import ResourceQuery.Specification
/-!
# Stores

What a store has to offer to execute specifications. A store that does not implement an operation
refuses it under its name. A record may be locked only by a filter that its identifier decides.
-/

namespace ResourceQuery

/-- The records of a fetch. -/
structure FetchResult where
  records : List Instance
  /-- The number of matching records, whatever the range. -/
  total : Nat
  /-- Targets of listed references by their texts. -/
  references : NameMap Instance

namespace FetchResult

/-- All records, without a range. -/
def ofRecords (records : List Instance) : FetchResult := ⟨records, records.length, []⟩

/-- The records of a range; the total still counts all of them. -/
def windowed (records : List Instance) : Option Range → FetchResult
  | some range => ⟨(records.drop range.first).take range.count, records.length, []⟩
  | none => ofRecords records

def withReference (r : FetchResult) (reference : String) (target : Instance) : FetchResult :=
  { r with references := r.references.insert reference target }

end FetchResult

structure Store where
  name : String
  fetch : Specification → Except Fault FetchResult
  /-- Lock one record of a type for an update; there may be none. -/
  lock : String → Filter → Except Fault (Option Instance)

namespace Store

def standardName : String := "Backend"

/-- A store that refuses every operation. -/
def refusing (name : String) : Store where
  name := name
  fetch spec := .error (Fault.of (.usage (.fetchUnsupported name spec.resourceType)))
  lock resourceType _ := .error (Fault.of (.usage (.lockUnsupported name resourceType)))

end Store

namespace Filter

/-- The filter can select a record of a resource type to lock. -/
def checkLock (s : Schema) (f : Filter) (resourceType : String) : Except Fault Unit := do
  if f.resourceType ≠ resourceType ∨ f.basePath.isSome then
    throw (Fault.of (.request (.lockElsewhere f.resourceType resourceType)))
  if !f.isByIdOnly s then throw (Fault.of (.request .lockNotById))

end Filter

end ResourceQuery
