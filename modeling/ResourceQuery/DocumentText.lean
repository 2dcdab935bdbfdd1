import ResourceQuery.Configuration
import ResourceQuery.Json.Printer
import ResourceQuery.Json.Reader
import ResourceQuery.Json.Tree
import ResourceQuery.Schema.Document
import ResourceQuery.Yaml.Printer
/-!
# Texts of documents

Configurations and schema documents are read from JSON and from YAML and written in both. What was
written in one of them reads as the same document in either.
-/

namespace ResourceQuery

namespace Fault.DocumentFormat

/-- What a function on trees makes of a text. -/
def readText? {α : Type} (format : DocumentFormat) (ofJson : Json → Option α)
    (ofYaml : Yaml.Tree → Option α) (text : String) : Option α :=
  match format with
  | json => (Json.parse? text).bind ofJson
  | yaml => (Yaml.Tree.ofText? text).bind ofYaml

def writeText (format : DocumentFormat) (document : Json) : String :=
  match format with
  | json => document.indented
  | yaml => Yaml.print document

end Fault.DocumentFormat

open Fault (DocumentFormat)

namespace Configuration

/-- A configuration from a text. Names that clash and limits of zero are refused. -/
def ofText (format : DocumentFormat) (text : String) : Except Fault Configuration := do
  match format.readText? ofTree? ofTree? text with
  | some config =>
    config.validate
    return config
  | none => throw (Fault.of (.document format .configuration))

def toText (format : DocumentFormat) (config : Configuration) : String :=
  format.writeText config.toJson

end Configuration

namespace SchemaDocument

/-- A schema document from a text. Whether its declarations make sense is found out by
`SchemaDocument.build`. -/
def ofText (format : DocumentFormat) (text : String) : Except Fault SchemaDocument :=
  match format.readText? ofTree? ofTree? text with
  | some document => .ok document
  | none => .error (Fault.of (.document format .schema))

def toText (format : DocumentFormat) (document : SchemaDocument) : String :=
  format.writeText document.toJson

end SchemaDocument

end ResourceQuery
