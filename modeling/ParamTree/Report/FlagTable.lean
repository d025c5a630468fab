import ParamTree.Document.Format
import ParamTree.Report.Columns
import ParamTree.Json.Printer
import ParamTree.Text.Blank
import ParamTree.Yaml.Printer

/-!
# Flag lists and parameter documents

The flags of a schema as aligned text, as Markdown, or as a JSON or YAML document,
and resolved parameters as a JSON or YAML document.
-/

namespace ParamTree.Report

/-- The formats of a flag list. -/
inductive FlagsFormat where
  | json
  | yaml
  | markdown
  | table
deriving DecidableEq, Repr

/-- The format with a name. -/
def FlagsFormat.ofName? (name : String) : Option FlagsFormat :=
  if name = "json" then some .json
  else if name = "yaml" then some .yaml
  else if name = "markdown" then some .markdown
  else if name = "table" then some .table
  else none

/-- The text of a value in a document format. -/
def formatParams (v : Value) : DocumentFormat → String
  | .json => Json.pretty v
  | .yaml => Yaml.document v

/-! ## Documents -/

/-- A text that may be missing, as a value. -/
def optionalText : Option String → Value
  | some s => .string s
  | none => .null

/-- A list of texts as a value. -/
def texts (ss : List String) : Value := .array (ss.map .string)

/-- A flag as a value. -/
def flagValue (flag : Flag) : Value :=
  .object
    [("name", .string flag.name),
     ("tags", texts flag.tags),
     ("path", texts flag.path),
     ("type_summary", .string flag.typeSummary),
     ("variadic", .bool flag.variadic),
     ("optional_value", .bool flag.optionalValue),
     ("default", optionalText flag.default),
     ("choices", texts flag.choices),
     ("group", optionalText flag.group),
     ("help_level", (Value.ofInt? flag.helpLevel).getD .null),
     ("description", optionalText flag.description)]

/-- A list of flags as a value. -/
def flagsValue (flags : List Flag) : Value := .array (flags.map flagValue)

/-! ## Markdown -/

/-- A text as inline code. -/
def code (s : String) : String := "`" ++ s ++ "`"

/-- The cells of a flag's Markdown row. -/
def markdownCells (flag : Flag) : List String :=
  [", ".intercalate (flag.tags.map code),
   code (valueCell flag),
   match flag.default with
   | some d => code d
   | none => "required",
   code flag.dottedPath,
   flag.description.getD ""]

/-- A Markdown row of cells. -/
def markdownRow (cells : List String) : String := "| " ++ " | ".intercalate cells ++ " |"

/-- The lines of the Markdown table of some flags; no table without flags. -/
def markdownTable (flags : List Flag) : List String :=
  if flags.isEmpty then []
  else
    markdownRow ["Flag", "Type", "Default", "Parameter", "Description"] ::
      "|------|------|---------|-----------|-------------|" ::
      flags.map fun flag => markdownRow (markdownCells flag)

/-- The Markdown page of a schema and some of its flags. -/
def markdown (schema : Schema) (flags : List Flag) : String :=
  let title := match schema.title with
    | some title => "# " ++ title ++ "\n\n"
    | none => ""
  let description := match schema.description with
    | some d => d ++ "\n\n"
    | none => ""
  let table := markdownTable flags
  title ++ description ++
    (if table.isEmpty then "" else String.join (table.map (· ++ "\n")) ++ "\n")

/-! ## Aligned text -/

/-- The cells of a row of the flag table. -/
structure TableRow where
  flag : String
  type : String
  parameter : String
  default : String
deriving DecidableEq, Repr

/-- The cells in order. -/
def TableRow.cells (r : TableRow) : List String := [r.flag, r.type, r.parameter, r.default]

/-- The heading of the flag table. -/
def tableHeader : TableRow := ⟨"FLAG", "TYPE", "PARAMETER", "DEFAULT"⟩

/-- The row of a flag. -/
def tableRow (flag : Flag) : TableRow :=
  ⟨tagCell flag, valueCell flag, flag.dottedPath, flag.default.getD "-"⟩

/-- The widths of the columns of some rows. -/
def tableWidths (rows : List TableRow) : List Nat :=
  [columnWidth (rows.map (·.flag)), columnWidth (rows.map (·.type)),
   columnWidth (rows.map (·.parameter)), columnWidth (rows.map (·.default))]

/-- A row with its cells in columns of the given widths, blanks at its end kept. -/
def alignedTableRow (widths : List Nat) (row : TableRow) : String :=
  "  ".intercalate (List.zipWith pad widths row.cells)

/-- The aligned table of some flags. -/
def table (flags : List Flag) : String :=
  let rows := tableHeader :: flags.map tableRow
  let widths := tableWidths rows
  String.join (rows.map fun row => Text.trimEnd (alignedTableRow widths row) ++ "\n")

/-! ## All formats -/

/-- The flags of a schema shown at a level, all of them without one, in a format. -/
def formatFlags (schema : Schema) (level : Option Nat) (format : FlagsFormat) : String :=
  let flags := schema.flags.visible (level.getD Schema.maxLevel)
  match format with
  | .json => Json.pretty (flagsValue flags)
  | .yaml => Yaml.document (flagsValue flags)
  | .markdown => markdown schema flags
  | .table => table flags

end ParamTree.Report
