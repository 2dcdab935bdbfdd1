import ResourceQuery.Schema.Basic
/-!
# Property paths

A dotted path such as `payment.Card.number`, followed from a container. Objects continue in the
container of their type and references in that of their target; the name of a variant selects the
container of the variant. `Path.steps` lists what was met on the way.
-/

namespace ResourceQuery

inductive PathStep
  /-- A property of the named container. -/
  | property (container : String) (property : Property)
  /-- The selected variant, which is also the name of its container. -/
  | variant (tag : String)
  deriving DecidableEq, Repr

namespace PathStep

def name : PathStep → String
  | property _ p => p.name
  | variant tag => tag

def property? : PathStep → Option Property
  | property _ p => some p
  | variant _ => none

/-- The container of the property, or the one that is selected. -/
def container : PathStep → String
  | property container _ => container
  | variant tag => tag

end PathStep

structure Path where
  text : String
  start : String
  steps : List PathStep
  deriving DecidableEq, Repr

namespace Path

def separator : Char := '.'

/-- The container that a path continues in behind a property. -/
def opened (s : Schema) (p : Property) : Option Container :=
  if p.isNavigable then p.target?.bind s.container? else none

/-- The steps of segments from a container on; the text is that of the whole path. -/
def follow (s : Schema) (text : String) : Container → List String → Except Fault (List PathStep)
  | _, [] => .ok []
  | c, segment :: rest =>
    let refuse (flaw : Fault.PathFlaw) : Except Fault (List PathStep) :=
      .error (Fault.of (.path text flaw))
    if segment.isEmpty then refuse .emptySegment
    else match c.property? segment with
      | some p =>
        if rest.isEmpty then .ok [.property c.name p]
        else match opened s p with
          | some next => (follow s text next rest).map (.property c.name p :: ·)
          | none => refuse (.notNavigable segment)
      | none =>
        if c.variants.contains segment then
          match s.container? segment with
          | some variant => (follow s text variant rest).map (.variant segment :: ·)
          | none => refuse (.unknownProperty segment c.name)
        else if (c.base?.bind s.container?).any fun base => base.variants.contains segment then
          refuse (.selectorInsideVariant segment c.name)
        else refuse (.unknownProperty segment c.name)

def segments (text : String) : List String :=
  (Text.split separator text.toList).map String.ofList

/-- The path that a text names, starting at a container. -/
def resolve (s : Schema) (start text : String) : Except Fault Path := do
  let c ← s.container start
  if text.isEmpty then throw (Fault.of (.path text .empty))
  return ⟨text, start, ← follow s text c (segments text)⟩

def properties (p : Path) : List Property := p.steps.filterMap PathStep.property?

def lastProperty? (p : Path) : Option Property := p.steps.getLast?.bind PathStep.property?

/-- The last property; a path may not end in the name of a variant. -/
def terminal (p : Path) : Except Fault Property :=
  match p.lastProperty? with
  | some last => .ok last
  | none => .error (Fault.of (.path p.text .endsInSelector))

/-- Some property on the path holds a collection. -/
def isMultiValued (p : Path) : Bool := p.properties.any fun q => q.type.isCollection

/-- The resource types whose records are joined in to follow the path. -/
def participatingTypes (p : Path) : List String :=
  ((p.steps.dropLast.filterMap PathStep.property?).filter Property.isReference).filterMap
    Property.target?

/-- The stored fields of all properties. -/
def fields (p : Path) : Except Fault String := do
  let names ← p.properties.mapM fun q =>
    match q.field with
    | .ok name => Except.ok name
    | .error fault => .error (fault.on p.text)
  return Text.join "." names

/-- The store can tell the property: it is stored, computed from stored data, or its container is
not kept by the store at all. -/
def isEvaluable (s : Schema) : PathStep → Bool
  | .property container p => !s.holdsPersistentData container || p.isPersisted || p.isComputed
  | .variant _ => true

def checkEvaluable (s : Schema) (p : Path) : Except Fault Unit :=
  match p.steps.find? fun step => !isEvaluable s step with
  | some step => .error (Fault.of (.path p.text (.notEvaluable step.name)))
  | none => .ok ()

/-- The text in front of the last segment. -/
def parent? (p : Path) : Option String :=
  (Text.splitLast separator p.text.toList).map fun parts => String.ofList parts.1

/-- The texts of the path up to each of its steps. -/
def prefixesFrom (front : String) : List PathStep → List (String × PathStep)
  | [] => []
  | step :: rest =>
    let text := if front.isEmpty then step.name else front ++ "." ++ step.name
    (text, step) :: prefixesFrom text rest

def prefixes (p : Path) : List (String × PathStep) := prefixesFrom "" p.steps

end Path

end ResourceQuery
