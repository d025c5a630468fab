import ParamTree.Document.Format
import ParamTree.Files.System
import ParamTree.Json.Reader
import ParamTree.Schema.Basic
import ParamTree.Yaml.Tree

/-!
# Documents

Reading a text or a file as a value, as a config or as a schema. Both formats give
values; what only YAML can say is an error (`Yaml.Tree.Misfit`).
-/

namespace ParamTree

/-- Why a document could not be loaded. -/
inductive LoadError where
  | file (failure : FileFailure)
  /-- The text does not follow the grammar of its format. -/
  | grammar (format : DocumentFormat)
  /-- The content is no value. -/
  | misfit (misfit : Yaml.Tree.Misfit)
  /-- The value is no schema. -/
  | schema (error : SchemaError)
  /-- The extension of the path belongs to no format. -/
  | unknownFormat (path : RawText)
deriving DecidableEq, Repr

/-- The text of a load error. -/
def LoadError.message : LoadError → String
  | file failure => "I/O error: " ++ failure.message
  | grammar .json => "JSON error: the text is not a JSON document"
  | grammar .yaml => "YAML error: the text is not a YAML document"
  | misfit m => "invalid document: " ++ m.message
  | schema e => "invalid schema: " ++ e.message
  | unknownFormat path => "unsupported document format: " ++ path.display

namespace Document

/-- The value that a text says. -/
def parse (format : DocumentFormat) (text : String) : Except LoadError Value :=
  match format with
  | .json =>
    match Json.read? text with
    | some v => .ok v
    | none => .error (.grammar .json)
  | .yaml =>
    match Yaml.content? text with
    | some tree => tree.toValue.mapError .misfit
    | none => .error (.grammar .yaml)

/-- The value that the file at a path says. -/
def load (fs : FileSystem) (path : RawText) : Except LoadError Value :=
  match DocumentFormat.ofPath? path with
  | none => .error (.unknownFormat path)
  | some format => do
    let text ← (fs.readText path).mapError .file
    parse format text

/-- The config in the file at a path; a document that says nothing is no config. -/
def loadConfig (fs : FileSystem) (path : RawText) : Except LoadError (Option Value) := do
  let value ← load fs path
  return if value.isNull then none else some value

/-- The schema that a value describes. -/
def toSchema (value : Value) : Except LoadError Schema := (Schema.ofValue value).mapError .schema

/-- The schema that a text describes. -/
def parseSchema (format : DocumentFormat) (text : String) : Except LoadError Schema := do
  toSchema (← parse format text)

/-- The schema in the file at a path. -/
def loadSchema (fs : FileSystem) (path : RawText) : Except LoadError Schema := do
  toSchema (← load fs path)

end Document

end ParamTree
