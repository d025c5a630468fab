import ParamTree.Report.Columns
import ParamTree.Text.Blank

/-!
# Help pages

A help page lists the flags shown at a level in the order of the schema, one row
each. Where the group changes a heading comes first; rows of the root that follow
a group stand under `Options`. The last row documents the help request itself.
-/

namespace ParamTree.Report

/-- A line of a help page before its columns are aligned. -/
inductive HelpLine where
  | heading (title : String)
  | row (tags value description : String)
deriving DecidableEq, Repr

/-- The description cell of a flag. -/
def descriptionCell (flag : Flag) : String :=
  let description := match flag.description with
    | some d => Text.collapse d
    | none => ""
  match flag.default with
  | none => description
  | some d =>
    (if description.isEmpty then "" else description ++ " ") ++ "(default: " ++ d ++ ")"

/-- The row of a flag. -/
def flagRow (flag : Flag) : HelpLine :=
  .row (tagCell flag) (valueCell flag) (descriptionCell flag)

/-- The heading of a group: its description, else its name. -/
def groupHeading (schema : Schema) : Option String → String
  | some name => (schema.groupDescription name).getD name
  | none => "Options"

/-- The lines of flags after a row of the group `current`. -/
def flagLines (schema : Schema) (current : Option String) : List Flag → List HelpLine
  | [] => []
  | flag :: rest =>
    if flag.group = current then flagRow flag :: flagLines schema current rest
    else
      .heading (groupHeading schema flag.group) :: flagRow flag ::
        flagLines schema flag.group rest

/-- The row of the help request, which names the levels that show more. -/
def helpRow (maxLevel : Nat) : HelpLine :=
  let intro := "Display this help."
  match maxLevel with
  | 0 => .row "-h, --help" "[bool]" intro
  | 1 => .row "-h, --help" "[int]" (intro ++ " Value 1 shows more advanced options.")
  | n =>
    let levels := ", ".intercalate ((List.range n).map fun i => toString (i + 1))
    .row "-h, --help" "[int]"
      (intro ++ " Values in \x7b" ++ levels ++ "\x7d show more advanced options.")

/-- The lines of the help page of a schema at a level. -/
def helpLines (schema : Schema) (level : Nat) : List HelpLine :=
  flagLines schema none (schema.flags.visible level) ++
    [.heading "Display help", helpRow schema.flags.maxHelpLevel]

/-- The cells of the tag column. -/
def tagColumn (lines : List HelpLine) : List String :=
  lines.filterMap fun
    | .row tags _ _ => some tags
    | .heading _ => none

/-- The cells of the value column. -/
def valueColumn (lines : List HelpLine) : List String :=
  lines.filterMap fun
    | .row _ value _ => some value
    | .heading _ => none

/-- A row with its cells in columns of the given widths, blanks at its end kept. -/
def alignedRow (tagWidth valueWidth : Nat) (tags value description : String) : String :=
  "  " ++ pad tagWidth tags ++ "  " ++ pad valueWidth value ++ "  " ++ description

/-- The text of a line. -/
def renderLine (tagWidth valueWidth : Nat) : HelpLine → String
  | .heading title => "\n" ++ title ++ ":\n"
  | .row tags value description =>
    Text.trimEnd (alignedRow tagWidth valueWidth tags value description) ++ "\n"

/-- What stands above the flags: the command and the title, then the description. -/
def helpIntro (schema : Schema) (command : Option String) : String :=
  let first := match command, schema.title with
    | some command, some title => command ++ ": " ++ title ++ "\n"
    | some command, none => command ++ "\n"
    | none, some title => title ++ "\n"
    | none, none => ""
  let second := match schema.description with
    | some d => "    " ++ Text.collapse d ++ "\n"
    | none => ""
  first ++ second

/-- The help page of a schema at a level. -/
def renderHelp (schema : Schema) (level : Nat) (command : Option String) : String :=
  let lines := helpLines schema level
  let tagWidth := columnWidth (tagColumn lines)
  let valueWidth := columnWidth (valueColumn lines)
  helpIntro schema command ++ String.join (lines.map (renderLine tagWidth valueWidth))

end ParamTree.Report
