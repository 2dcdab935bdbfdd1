import ResourceQuery.Compile.Specification
import ResourceQuery.DocumentText
import ResourceQuery.Schema.Build
import ResourceQuery.Schema.Fingerprint
import ResourceQuery.Specification.Document
/-!
# The command line

`check` lists the containers of a schema, `compile` prints the specification that a query string
asks for, and `resolve` shows the steps of a property path. A command prints all or nothing, so a
fault leaves the output empty.
-/

namespace ResourceQuery

inductive Command
  | check (schema : String)
  | compile (schema resourceType query : String) (config : Option String) (encode : Bool)
  | resolve (schema container path : String)
  deriving DecidableEq, Repr

/-- The texts of files by their paths, or the reasons why they cannot be read. -/
abbrev Files := String → Except String String

/-- What a command leaves behind. -/
structure CommandResult where
  code : Nat
  output : String
  errors : String
  deriving DecidableEq, Repr

/-- Arguments sorted into positions and options. -/
structure Arguments where
  positions : List String
  config : Option String
  encode : Bool

namespace Arguments

/-- An argument of its own, not the name of an option. -/
def isPlain (argument : String) : Bool := argument == "-" || !Text.startsWith argument "-"

/-- Options stand anywhere in front of a double dash, each at most once. -/
def read (a : Arguments) : List String → Option Arguments
  | [] => some a
  | "--" :: rest => some { a with positions := a.positions ++ rest }
  | "--encode" :: rest => if a.encode then none else read { a with encode := true } rest
  | "--config" :: path :: rest =>
    if a.config.isSome || path.isEmpty || !isPlain path then none
    else read { a with config := some path } rest
  | argument :: rest =>
    if isPlain argument then read { a with positions := a.positions ++ [argument] } rest
    else
      let start := "--config="
      let path := String.ofList (argument.toList.drop start.length)
      if Text.startsWith argument start && a.config.isNone && !path.isEmpty then
        read { a with config := some path } rest
      else none

end Arguments

namespace Command

def usage : String :=
  "usage: check <schema>\n       compile <schema> <type> <query> [--config <path>] [--encode]\n"
    ++ "       resolve <schema> <container> <path>\n"

/-- The command that arguments ask for. -/
def ofArguments? (arguments : List String) : Option Command := do
  let name :: rest := arguments | none
  let a ← Arguments.read ⟨[], none, false⟩ rest
  let isBare := a.config.isNone && !a.encode
  match name, a.positions with
  | "check", [schema] => if isBare then some (check schema) else none
  | "compile", [schema, resourceType, query] =>
    some (compile schema resourceType query a.config a.encode)
  | "resolve", [schema, container, path] =>
    if isBare then some (resolve schema container path) else none
  | _, _ => none

/-- The files that a command may read, in that order. -/
def files : Command → List String
  | check schema => [schema]
  | compile schema _ _ config _ => schema :: config.toList
  | resolve schema _ _ => [schema]

/-- The last part of the file name in a path, behind a point that is not its first character. -/
def extension? (path : String) : Option String := do
  let file := ((Text.splitLast '/' path.toList).map Prod.snd).getD path.toList
  let (stem, extension) ← Text.splitLast '.' file
  if stem.isEmpty then none else some (String.ofList extension)

/-- Files are read as YAML unless their names tell otherwise. -/
def formatOf (path : String) : Fault.DocumentFormat :=
  if extension? path = some "json" then .json else .yaml

section Files

variable (fileText : Files)

def readText (path : String) : Except Fault String :=
  match fileText path with
  | .ok text => .ok text
  | .error reason => .error (Fault.of (.configuration (.unreadableFile path reason)))

def readDocument (path : String) : Except Fault SchemaDocument := do
  SchemaDocument.ofText (formatOf path) (← readText fileText path)

def readSchema (path : String) : Except Fault Schema := do
  (← readDocument fileText path).build

def readConfiguration : Option String → Except Fault Configuration
  | some path => do Configuration.ofText (formatOf path) (← readText fileText path)
  | none => .ok {}

/-- Name, kind and type of a property in columns. -/
def propertyLine (p : Property) : String :=
  Text.padRight 20 p.name ++ " " ++ Text.padRight 12 p.kind.name ++ " " ++ p.type.expression

def containerLines (c : Container) : List String :=
  let variant := if c.isVariant then " variant " ++ c.name else ""
  (c.name ++ " (" ++ c.roleName ++ variant ++ ")")
    :: c.properties.map fun p => "  " ++ propertyLine p

def stepLine : PathStep → String
  | .property container p => container ++ "." ++ propertyLine p
  | .variant tag => tag ++ "[" ++ tag ++ "]"

def persistenceLine (path : Path) : String :=
  match path.fields with
  | .ok fields => "persisted as " ++ fields
  | .error _ => "not persisted"

/-- The lines that a command prints. -/
def lines : Command → Except Fault (List String)
  | check path => do
    let document ← readDocument fileText path
    let schema ← document.build
    let summary := Numeral.ofNat schema.containers.length ++ " containers, fingerprint "
      ++ document.fingerprint
    return summary :: schema.containers.flatMap containerLines
  | compile path resourceType query config encode => do
    let schema ← readSchema fileText path
    let config ← readConfiguration fileText config
    let spec ← Specification.compile schema config resourceType (Parameters.parse query)
    if encode then return [(← spec.encode config).encode]
    else return [(spec.toJson Value.toJson).indented]
  | resolve path container text => do
    let schema ← readSchema fileText path
    let resolved ← Path.resolve schema container text
    return resolved.steps.map stepLine ++ [persistenceLine resolved]

def run (command : Command) : CommandResult :=
  match command.lines fileText with
  | .ok lines => ⟨0, String.join (lines.map fun line => line ++ "\n"), ""⟩
  | .error fault => ⟨1, "", fault.describe ++ "\n"⟩

/-- Run what arguments ask for. -/
def runArguments (arguments : List String) : CommandResult :=
  match ofArguments? arguments with
  | some command => command.run fileText
  | none => ⟨2, "", usage⟩

end Files

end Command

end ResourceQuery
