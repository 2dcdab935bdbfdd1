import ResourceQuery.Schema.Basic
import ResourceQuery.ValueType.Text
/-!
# References and their texts

A reference is written as the resource type, a separator and the text of the identifier, which is
read under the type of the identifier. The identifier of a resource may itself be a reference; its
text is shorter, so reading ends.
-/

namespace ResourceQuery

namespace ResourceRef

def splitFault (text : String) : Fault :=
  ScalarKind.conversionFault text "reference" (some "expected '<type>#<id>'")

/-- The type and the identifier of a written reference. -/
def split (text : String) : Except Fault (String × String) :=
  match split? text with
  | some parts => .ok parts
  | none => .error (splitFault text)

end ResourceRef

/-- A reference read from a text, if the target allows it. -/
def Target.accept (target : Target) (text : String) (reference : ResourceRef) :
    Except Fault Value :=
  if target.accepts reference.resourceType then .ok (.ofRef reference)
  else
    .error (ScalarKind.conversionFault text (ValueType.reference target).expression
      (some s!"reference to '{target.name}' expected"))

namespace Schema

/-- The identifier of a resource that a reference may point to. -/
def referable (s : Schema) (text type : String) : Except Fault Property :=
  let refuse (reason : String) : Except Fault Property :=
    .error (ScalarKind.conversionFault text "reference" (some reason))
  match (s.container? type).filter Container.isResource with
  | none => refuse s!"unknown resource type '{type}'"
  | some resource =>
    match resource.identifier? with
    | some id => .ok id
    | none => refuse s!"resource type '{type}' has no identifier"

/-- The reference that a text stands for. -/
def readReference (s : Schema) (text : List Char) : Except Fault ResourceRef :=
  match _h : Text.splitFirst Value.referenceSeparator text with
  | none => .error (ResourceRef.splitFault (String.ofList text))
  | some (type, id) =>
    if type.isEmpty || id.isEmpty then .error (ResourceRef.splitFault (String.ofList text))
    else do
      let idText := String.ofList id
      let identifier ← s.referable (String.ofList text) (String.ofList type)
      let value ← match identifier.type.leaf with
        | .scalar kind => kind.parse idText
        | .enum members => ValueType.parseMember members idText
        | .reference target => do target.accept idText (← readReference s id)
        | leaf => .error (Fault.of (.noText leaf.expression))
      return ⟨String.ofList type, value⟩
  termination_by text.length
  decreasing_by exact Text.length_of_splitFirst _h

def parseReference (s : Schema) (text : String) : Except Fault ResourceRef :=
  s.readReference text.toList

/-- The text of a reference, checked against the type of the identifier. -/
def referenceToText (s : Schema) (reference : ResourceRef) : Except Fault String := do
  let resource ← s.resource reference.resourceType
  match resource.identifier? with
  | some id => return resource.name ++ "#" ++ (← id.type.toText reference.id)
  | none => throw (Fault.of (.type resource.name .noIdentifier))

end Schema

namespace ValueType

/-- The value that a text stands for under the leaf of a type. -/
def parseText (s : Schema) (type : ValueType) (text : String) : Except Fault Value :=
  match type.leaf with
  | scalar kind => kind.parse text
  | enum members => parseMember members text
  | reference target => do target.accept text (← s.parseReference text)
  | leaf => .error (Fault.of (.noText leaf.expression))

end ValueType

end ResourceQuery
