import ResourceQuery.Numeral.Digits
import ResourceQuery.Position
import ResourceQuery.Schema.Declaration
import ResourceQuery.Text.Piece
/-!
# Faults

Everything that can go wrong, by cause. `Cause.message` holds the wording, `Cause.kind` the class of
a cause. A `Fault` adds what a caller needs to answer: the position in the parameter text, the
property path and the offending value. `Kind.isRequest` tells the faults of a request from those of
the schema or the setup.
-/

namespace ResourceQuery

namespace Fault

inductive Kind
  | schema
  | path
  | specification
  | parse
  | conversion
  | representation
  | resourceData
  | access
  | configuration
  | general
  deriving DecidableEq, Repr

/-- The request is to blame, and neither the schema nor the setup. -/
def Kind.isRequest : Kind → Bool
  | schema | configuration | general => false
  | _ => true

/-- What is wrong with the declaration of a type. -/
inductive TypeFlaw
  | typeName
  | propertyName
  | noVariants
  | noDiscriminator
  | twice
  | notResource
  | noIdentifier
  | persistentWithoutIdentifier
  | polymorphicWithoutDiscriminator
  deriving DecidableEq, Repr

def TypeFlaw.message : TypeFlaw → String
  | typeName => "Type name must be an identifier"
  | propertyName => "Property name must be an identifier"
  | noVariants => "polymorphic type without variants"
  | noDiscriminator => "variants declared without a discriminator"
  | twice => "declared twice"
  | notResource => "not a resource type"
  | noIdentifier => "resource has no identifier"
  | persistentWithoutIdentifier => "persistent resource without an identifier"
  | polymorphicWithoutDiscriminator => "polymorphic type without a discriminator"

/-- What is wrong with the declaration of a property. -/
inductive PropertyFlaw
  | typeExpression (text : String)
  | secondIdentifier
  | twice
  | hidesBaseProperty
  | resourceEmbedded (name : String)
  | unknownObject (name : String)
  | unknownResource (name : String)
  | emptyEnum
  | mapKey (type : String)
  | identifierOutsideResource
  | identifierType
  | simpleType
  | objectType
  | referenceType
  | stampMissing
  | stampType
  | reverseMissing
  | dependentType
  | reverseUnknown (target reverse : String)
  | reverseElsewhere (target reverse source : String)
  | reverseNotPersisted (target reverse : String)
  | aggregateMissing
  | aggregateNotNullable
  | aggregateType
  | collectionUnknown (collection : String)
  | collectionNotDependent (collection : String)
  | collectionNotObjects (collection : String)
  | elementsWithoutProperties (collection : String)
  | sourceUnknown (container source : String)
  | sourceType (source : String)
  | numericResult (function : AggregateFunction)
  | resultType (function : AggregateFunction) (source result : String)
  | numericValues (function : AggregateFunction)
  | sourceMissing (function : AggregateFunction)
  | nestedCollections
  | storageOfSingle
  | storageWithoutParent
  | mapWithoutKeyField
  | keyFieldWithoutMap
  | storageNotPersisted
  | lazyNotNullable
  deriving DecidableEq, Repr

/-- The text of a parse failure; what could not be read is named behind it. -/
def parseMessage (text what : String) : String := s!"Can't parse '{text}': invalid {what}"

def PropertyFlaw.message : PropertyFlaw → String
  | typeExpression text => parseMessage text "type expression"
  | secondIdentifier => "second identifier"
  | twice => "declared twice"
  | hidesBaseProperty => "hides a property of the polymorphic base"
  | resourceEmbedded name => s!"'{name}' is a resource and can't be embedded, use a reference"
  | unknownObject name => s!"unknown object type '{name}'"
  | unknownResource name => s!"reference to unknown resource '{name}'"
  | emptyEnum => "enum without values"
  | mapKey type => s!"map key type {type} is not a scalar or reference"
  | identifierOutsideResource => "only resources declare an identifier"
  | identifierType => "identifier must be a single scalar or reference"
  | simpleType => "object or reference value declared as a simple property"
  | objectType => "object property must have an object type"
  | referenceType => "reference property must have a reference type"
  | stampMissing => "meta property without 'meta' kind"
  | stampType => "wrong value type for a meta property"
  | reverseMissing => "dependent reference without 'reverse'"
  | dependentType => "dependent reference must be a reference or a collection of references"
  | reverseUnknown target reverse => s!"'{target}' has no property '{reverse}'"
  | reverseElsewhere target reverse source =>
    s!"'{target}.{reverse}' must be a single reference to '{source}'"
  | reverseNotPersisted target reverse => s!"'{target}.{reverse}' is not persisted"
  | aggregateMissing => "aggregate without definition"
  | aggregateNotNullable => "aggregate must be nullable"
  | aggregateType => "aggregate must be a single scalar"
  | collectionUnknown collection => s!"unknown collection property '{collection}'"
  | collectionNotDependent collection => s!"'{collection}' is not a dependent reference"
  | collectionNotObjects collection =>
    s!"'{collection}' is not a collection of objects or references"
  | elementsWithoutProperties collection => s!"elements of '{collection}' have no properties"
  | sourceUnknown container source => s!"unknown source property '{container}.{source}'"
  | sourceType source => s!"source property '{source}' must be a single scalar"
  | numericResult function => function.name ++ " requires a numeric property"
  | resultType function source result =>
    function.name ++ s!" of {source} can't be stored in {result}"
  | numericValues function => function.name ++ " requires numeric values"
  | sourceMissing function => function.name ++ " requires a source property"
  | nestedCollections => "persisted property with nested collections"
  | storageOfSingle => "separate storage requires a collection property"
  | storageWithoutParent => "separate storage without a parent link field"
  | mapWithoutKeyField => "map storage without a key field"
  | keyFieldWithoutMap => "key field declared for a non-map"
  | storageNotPersisted => "storage declared for a property that is not persisted"
  | lazyNotNullable => "a property not fetched by default must be nullable"

/-- Why a property path cannot be followed or used. -/
inductive PathFlaw
  | empty
  | emptySegment
  | unknownProperty (name container : String)
  | notNavigable (name : String)
  | selectorInsideVariant (tag container : String)
  | endsInSelector
  | notPersisted (property : String)
  | notEvaluable (property : String)
  deriving DecidableEq, Repr

def PathFlaw.message (path : String) : PathFlaw → String
  | empty => "Empty property path"
  | emptySegment => s!"Empty segment in property path '{path}'"
  | unknownProperty name container => s!"Unknown property '{name}' in '{container}'"
  | notNavigable name => s!"Property '{name}' can't be navigated into"
  | selectorInsideVariant tag container =>
    s!"Type selector '{tag}' can't be applied inside variant '{container}'"
  | endsInSelector => s!"Path '{path}' does not end in a property"
  | notPersisted property => s!"Property '{property}' is not persisted"
  | notEvaluable property =>
    s!"Property '{property}' is not persisted and can't be used in '{path}'"

/-- Why a property cannot be used in the requested way. -/
inductive UseFlaw
  | basePathTarget
  | operandMissing (test : String)
  | operandUnwanted (test : String)
  | notMap
  | notTypedReference
  | referencedWithoutIdentifier
  | transformOfNonString (transform : String)
  | testNotApplicable (test what : String)
  | sortCollection
  | sortObject
  | sortDynamic
  | sortReference
  | sortWithoutIdentifier
  | sortIdOfNonReference
  | includeObject
  | fetchUntyped
  | notAggregate
  | scopeElsewhere (filter collection : String)
  | notReference
  deriving DecidableEq, Repr

def UseFlaw.message (path : String) : UseFlaw → String
  | basePathTarget => "Base path must end in an object or reference property"
  | operandMissing test => s!"Condition '{test}' requires an operand"
  | operandUnwanted test => s!"Condition '{test}' takes no operands"
  | notMap => "Only maps have keys"
  | notTypedReference => "The 'id' qualifier applies to typed references only"
  | referencedWithoutIdentifier => "Referenced type has no identifier"
  | transformOfNonString transform => s!"Transform '{transform}' requires a string property"
  | testNotApplicable test what => s!"Condition '{test}' can't be applied to {what}"
  | sortCollection => "Can't sort by a collection"
  | sortObject => "Can't sort by an object"
  | sortDynamic => "Can't sort by a dynamically typed property"
  | sortReference => "Sorting by a reference requires the 'id' qualifier"
  | sortWithoutIdentifier => "Referenced type has no sortable identifier"
  | sortIdOfNonReference => "The 'id' qualifier applies to references only"
  | includeObject => s!"Object '{path}' must be included by naming its properties"
  | fetchUntyped => "Only typed references can be fetched"
  | notAggregate => s!"Property '{path}' is not an aggregate"
  | scopeElsewhere filter collection =>
    s!"Filter '{filter}' must be based on '{collection}' to scope aggregate '{path}'"
  | notReference => s!"Property '{path}' is not a reference"

/-- Why a request describes no legal specification. -/
inductive RequestFlaw
  | basePathTooLate
  | segmentElsewhere (key resourceType : String)
  | allTwice
  | allNotFirst
  | transformArity (transform : String) (arity given : Nat)
  | transformNumber (transform : String) (index : Nat)
  | transformFill
  | mainBasePath (key : String)
  | groupTooDeep (group : String) (limit : Nat)
  | groupJunction (group : String)
  | valueUnwanted (test : String)
  | tooManyValues (limit : Nat)
  | notSingleValue (name : String)
  | repeatedOperand
  | repeatedTransform
  | testNotLast
  | directionNotLast
  | lockElsewhere (filterType resourceType : String)
  | lockNotById
  deriving DecidableEq, Repr

def RequestFlaw.message : RequestFlaw → String
  | basePathTooLate => "Base path must be set before adding conditions"
  | segmentElsewhere key resourceType => s!"Filter '{key}' can't segment '{resourceType}' records"
  | allTwice => "'*' may appear only once"
  | allNotFirst => "'*' must precede all property paths"
  | transformArity transform arity given =>
    s!"Transform '{transform}' takes " ++ Numeral.ofNat arity ++ " parameter(s), "
      ++ Numeral.ofNat given ++ " given"
  | transformNumber transform index =>
    "Parameter " ++ Numeral.ofNat index
      ++ s!" of transform '{transform}' must be a non-negative integer"
  | transformFill => "Fill of transform 'lpad' must be a single letter, digit, '_', '+' or '.'"
  | mainBasePath key => s!"The main filter '{key}' can't have a base path"
  | groupTooDeep group limit =>
    s!"Filter group '{group}' is nested deeper than " ++ Numeral.ofNat limit ++ " levels"
  | groupJunction group => s!"Group '{group}' must be 'and' or 'or'"
  | valueUnwanted test => s!"Condition '{test}' takes no value"
  | tooManyValues limit =>
    "At most " ++ Numeral.ofNat limit ++ " values are allowed per condition"
  | notSingleValue name => s!"Parameter '{name}' must have exactly one value"
  | repeatedOperand => "Repeated operand qualifier"
  | repeatedTransform => "Repeated transform qualifier"
  | testNotLast => "The test kind must be the last qualifier"
  | directionNotLast => "The direction must be the last qualifier"
  | lockElsewhere filterType resourceType =>
    s!"A filter over '{filterType}' can't lock '{resourceType}'"
  | lockNotById => "Locking requires a filter on the identifier only"

/-- Why a document does not hold the values of a resource. -/
inductive DataFlaw
  | wrongObject (found expected : String)
  | unknownProperty (name container : String)
  | malformedJson
  | endOfInput (expected : String)
  | unexpected (expected found : String)
  | propertyOutsideObject
  | elementOutsideCollection
  | noOpenObject
  | noOpenCollection
  deriving DecidableEq, Repr

def DataFlaw.message : DataFlaw → String
  | wrongObject found expected => s!"Object of type '{found}' where '{expected}' is expected"
  | unknownProperty name container => s!"Unknown property '{name}' in '{container}'"
  | malformedJson => "Invalid JSON: malformed text"
  | endOfInput expected => s!"Expected {expected}, found end of input"
  | unexpected expected found => s!"Expected {expected}, found {found}"
  | propertyOutsideObject => "Property requested outside of an object"
  | elementOutsideCollection => "Element requested outside of a collection"
  | noOpenObject => "No open object"
  | noOpenCollection => "No open collection"

inductive ConfigurationFlaw
  | filterKey (key : String)
  | parameterName (name : String)
  | parameterTwice (name : String)
  | limits
  | unreadableFile (path reason : String)
  deriving DecidableEq, Repr

def ConfigurationFlaw.message : ConfigurationFlaw → String
  | filterKey key => s!"Invalid filter key '{key}'"
  | parameterName name => s!"Invalid parameter name '{name}'"
  | parameterTwice name => s!"Parameter name '{name}' is used twice"
  | limits => "Limits must be positive"
  | unreadableFile path reason => s!"Can't read {path}: {reason}"

/-- Calls that do not fit the state of a specification, a session or a store. -/
inductive UsageFlaw
  | unknownNode (node : Nat)
  | unterminated (count : Nat)
  | nothingWritten
  | secondValue
  | valueWithoutName
  | nameOutsideObject (name : String)
  | noOpenObject
  | noOpenCollection
  | fetchUnsupported (store resourceType : String)
  | lockUnsupported (store resourceType : String)
  deriving DecidableEq, Repr

def UsageFlaw.message : UsageFlaw → String
  | unknownNode node => "Unknown filter node " ++ Numeral.ofNat node
  | unterminated count => Numeral.ofNat count ++ " unterminated structure(s) in JSON output"
  | nothingWritten => "Nothing written"
  | secondValue => "JSON output already contains a value"
  | valueWithoutName => "Value written without a property name or key"
  | nameOutsideObject name => s!"Property name '{name}' written outside of an object or map"
  | noOpenObject => "No open object"
  | noOpenCollection => "No open collection"
  | fetchUnsupported store resourceType => s!"{store} does not support fetching {resourceType}"
  | lockUnsupported store resourceType => s!"{store} does not support locking {resourceType}"

/-- How a document is written. -/
inductive DocumentFormat
  | json
  | yaml
  deriving DecidableEq, Repr

/-- What a document describes. -/
inductive Subject
  | configuration
  | schema
  deriving DecidableEq, Repr

inductive Cause
  | type (name : String) (flaw : TypeFlaw)
  | property (container name : String) (flaw : PropertyFlaw)
  | unknownContainer (name : String)
  | path (path : String) (flaw : PathFlaw)
  | use (path : String) (flaw : UseFlaw)
  | request (flaw : RequestFlaw)
  | unknownName (what name : String) (allowed : List String)
  | unparsable (text what : String)
  | conversion (what target : String) (reason : Option String)
  | noText (type : String)
  | data (flaw : DataFlaw)
  | denied (operation : Operation) (path : String)
  | configuration (flaw : ConfigurationFlaw)
  | document (format : DocumentFormat) (subject : Subject)
  | usage (flaw : UsageFlaw)
  deriving DecidableEq, Repr

namespace Cause

def kind : Cause → Kind
  | type .. | property .. | unknownContainer _ => .schema
  | path .. => .path
  | use .. | request _ | unknownName .. => .specification
  | unparsable .. | document .. => .parse
  | conversion .. => .conversion
  | noText _ => .representation
  | data _ => .resourceData
  | denied .. => .access
  | configuration _ => .configuration
  | usage _ => .general

def quoted (name : String) : String := s!"'{name}'"

def message : Cause → String
  | type name flaw => s!"Invalid declaration of '{name}': " ++ flaw.message
  | property container name flaw =>
    s!"Invalid declaration of property '{container}.{name}': " ++ flaw.message
  | unknownContainer name => s!"Unknown resource or object type '{name}'"
  | path text flaw => flaw.message text
  | use text flaw => flaw.message text ++ s!" (property '{text}')"
  | request flaw => flaw.message
  | unknownName what name allowed =>
    s!"Unknown {what} '{name}', expected one of " ++ Text.join ", " (allowed.map quoted)
  | unparsable text what => parseMessage text what
  | conversion what target none => s!"Can't convert '{what}' to {target}"
  | conversion what target (some reason) => s!"Can't convert '{what}' to {target}: {reason}"
  | noText name => s!"Values of type {name} have no textual representation"
  | data flaw => flaw.message
  | denied operation text =>
    "Operation '" ++ operation.name ++ s!"' not permitted on '{text}'"
  | configuration flaw => flaw.message
  | document .json .configuration => "Failed to parse JSON configuration: malformed document"
  | document .yaml .configuration => "Failed to parse YAML configuration: malformed document"
  | document .json .schema => "Failed to parse JSON schema document: malformed document"
  | document .yaml .schema => "Failed to parse YAML schema document: malformed document"
  | usage flaw => flaw.message

/-- The property that a cause is about. -/
def path? : Cause → Option String
  | property _ name _ => some name
  | path _ (.notPersisted name) => some name
  | path text _ => some text
  | use text _ => some text
  | denied _ text => some text
  | data (.unknownProperty name _) => some name
  | _ => none

/-- The text that a cause is about. -/
def value? : Cause → Option String
  | unknownName _ name _ => some name
  | unparsable text _ => some text
  | conversion what _ _ => some what
  | data (.unexpected _ found) => some found
  | _ => none

end Cause

end Fault

structure Fault where
  cause : Fault.Cause
  position : Position
  path : Option String
  value : Option String
  deriving DecidableEq, Repr

namespace Fault

def of (cause : Cause) : Fault := ⟨cause, .unknown, cause.path?, cause.value?⟩

/-- The fault with its place in a parameter text. -/
def locatedAt (fault : Fault) (position : Position) : Fault := { fault with position := position }

def on (fault : Fault) (path : String) : Fault := { fault with path := some path }

def about (fault : Fault) (value : String) : Fault := { fault with value := some value }

def kind (fault : Fault) : Kind := fault.cause.kind

def message (fault : Fault) : String := fault.cause.message

/-- The message, with the position if it is known. -/
def describe (fault : Fault) : String :=
  if fault.position.isUnknown then fault.message
  else fault.message ++ " at " ++ fault.position.describe

end Fault

end ResourceQuery
