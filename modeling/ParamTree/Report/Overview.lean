import ParamTree.Document.CommandSet
import ParamTree.Report.Columns
import ParamTree.Text.Blank

/-!
# The overview of a command set

One line for each command, with the title of its schema.
-/

namespace ParamTree.Report

/-- The width of the name column where there is no name. -/
def emptyNameWidth : Nat := 4

/-- The width of the name column. -/
def nameWidth (names : List String) : Nat :=
  if names.isEmpty then emptyNameWidth else columnWidth names

/-- The line of a command, blanks at its end dropped. -/
def commandLine (width : Nat) (name : String) (schema : Schema) : String :=
  Text.trimEnd ("  " ++ pad width name ++ "  " ++ schema.title.getD "") ++ "\n"

/-- The overview of the commands of a program. -/
def overview (program : String) (set : CommandSet) : String :=
  let width := nameWidth set.names
  "Usage: " ++ program ++ " <command> [flags...]\n\nCommands:\n" ++
    String.join (set.commands.map fun (name, schema) => commandLine width name schema)

end ParamTree.Report
