import ParamTree.CommandLine.Request
import ParamTree.Document.CommandSet
import ParamTree.Report.Help
import ParamTree.Report.Overview
import ParamTree.Resolve.Basic

/-!
# The program

`run` answers the arguments of the command line over a file system: with what goes
to the two outputs and the exit status. The file system changes only where a
resolution makes directories.
-/

namespace ParamTree.CommandLine

/-- What the program leaves behind besides the file system. -/
structure Answer where
  status : Nat := 0
  output : String := ""
  messages : String := ""
deriving DecidableEq, Repr

/-- A part of the program: its output, or the text of the error that ends it. -/
abbrev Attempt := FileM String

/-- A loaded thing, or the error of loading it. -/
def loaded {ε α : Type} (what path : String) (message : ε → String) : Except ε α → Attempt α
  | .ok a => pure a
  | .error e => throw ("Failed to load " ++ what ++ " '" ++ path ++ "': " ++ message e)

/-- The schema at a path. -/
def readSchema (path : String) : Attempt Schema := do
  loaded "schema" path LoadError.message (Document.loadSchema (← get) path)

/-- The config at a path, if one is given. -/
def readConfig : Option String → Attempt (Option Value)
  | none => pure none
  | some path => do loaded "config" path LoadError.message (Document.loadConfig (← get) path)

/-- A text that ends its last line. -/
def endLine (text : String) : String :=
  if text.toList.getLast? = some '\n' then text else text ++ "\n"

/-- The parameters of a schema as a document. -/
def resolved (schema : Schema) (config : Option String) (format : DocumentFormat)
    (tokens : List String) : Attempt String := do
  let config ← readConfig config
  let params ← EStateM.adaptExcept ResolveError.message (schema.resolve config (some tokens))
  return endLine (Report.formatParams params format)

/-- The documents that an input names: those in a directory, or the input itself. -/
def inputPaths (fs : FileSystem) (input : String) : Except String (List RawText) :=
  if fs.isDirectory input then
    match fs.list input with
    | .ok names => .ok (documentPaths fs input names)
    | .error failure => .error ("Failed to read '" ++ input ++ "': " ++ failure.message)
  else .ok [input]

/-- The line of an error that ends the program. -/
def errorLine (e : String) : String := "error: " ++ e ++ "\n"

/-- The line of a document that is no schema. -/
def faultLine (path : RawText) : Except LoadError Schema → Option String
  | .error e => some (path.display ++ ": " ++ e.message ++ "\n")
  | .ok _ => none

/-- The number of flags of a schema that was loaded. -/
def flagCount : Except LoadError Schema → Nat
  | .ok schema => schema.flags.flags.length
  | .error _ => 0

/-- The answer of trying the documents at some paths. -/
def validatePaths (fs : FileSystem) (paths : List RawText) : Answer :=
  let results := paths.map (Document.loadSchema fs)
  let faults := (List.zipWith faultLine paths results).filterMap id
  if paths.isEmpty then { status := 1, messages := errorLine "No schema documents found" }
  else if faults.isEmpty then
    { output := "Validated " ++ toString paths.length ++ " schema file(s) with " ++
        toString ((results.map flagCount).foldl (· + ·) 0) ++ " flag(s).\n" }
  else
    { status := 1
      messages := String.join faults ++
        errorLine (toString faults.length ++ " of " ++ toString paths.length ++
          " schema file(s) failed validation") }

/-- The answer of trying the documents that inputs name. -/
def validate (fs : FileSystem) (inputs : List String) : Answer :=
  match inputs.mapM (inputPaths fs) with
  | .ok paths => validatePaths fs paths.flatten
  | .error e => { status := 1, messages := errorLine e }

/-- The commands in a directory. -/
def readCommands (directory : String) : Attempt CommandSet := do
  match CommandSet.ofDirectory (← get) directory with
  | .ok set => return set
  | .error e =>
    throw ("Failed to load commands from '" ++ directory ++ "': " ++ e.message)

/-- Resolves the parameters of the command that tokens start with. Without tokens,
or with a request for help first, the overview comes instead. -/
def runCommand (directory : String) (config : Option String) (format : DocumentFormat)
    (tokens : List String) : Attempt String := do
  let set ← readCommands directory
  if tokens.head?.all helpTags.contains then return Report.overview "parschema run" set
  match set.dispatch tokens with
  | .error e => throw e.message
  | .ok (name, schema, rest) =>
    match findHelp rest with
    | some level => return Report.renderHelp schema level (some name)
    | none => resolved schema config format rest

/-- Resolves the parameters of a schema, or shows its help page where tokens ask for
help. -/
def resolveParameters (path : String) (config : Option String) (format : DocumentFormat)
    (tokens : List String) : Attempt String := do
  let schema ← readSchema path
  match findHelp tokens with
  | some level => return Report.renderHelp schema level none
  | none => resolved schema config format tokens

/-- The answer of an attempt and the file system after it. -/
def conclude (attempt : Attempt String) (fs : FileSystem) : Answer × FileSystem :=
  match attempt.run fs with
  | .ok output fs => ({ output }, fs)
  | .error e fs => ({ status := 1, messages := errorLine e }, fs)

/-- The answer to a request and the file system after it. -/
def answer (request : Request) (fs : FileSystem) : Answer × FileSystem :=
  match request with
  | .resolve schema config format tokens =>
    conclude (resolveParameters schema config format tokens) fs
  | .flags schema level format =>
    conclude (do return endLine (Report.formatFlags (← readSchema schema) level format)) fs
  | .help schema level =>
    conclude (do return Report.renderHelp (← readSchema schema) level none) fs
  | .validate inputs => (validate fs inputs, fs)
  | .run commands config format tokens =>
    conclude (runCommand commands config format tokens) fs

/-! ## Usage -/

/-- The version of the program. -/
def versionText : String := "parschema 0.1.0\n"

/-- How the program is used. -/
def usage : String :=
  "Schema-driven parameter resolution\n\n" ++
    "Usage: parschema [-v]... <command> [options]\n\n" ++
    "Commands:\n" ++
    "  resolve   --schema <path> [--config <path>] [--format json|yaml] [tokens...]\n" ++
    "  flags     --schema <path> [--level <n>] [--format json|yaml|markdown|table]\n" ++
    "  help      --schema <path> [--level <n>]\n" ++
    "  validate  <path>...\n" ++
    "  run       --commands <path> [--config <path>] [--format json|yaml] [tokens...]\n"

/-- The answer where no request was read. -/
def stopped : Stop → Answer
  | .help => { output := usage }
  | .version => { output := versionText }
  | .misuse => { status := 2, messages := "error: invalid arguments\n\n" ++ usage }

/-- The answer to the arguments of the command line, and the file system after it. -/
def run (args : List String) (fs : FileSystem) : Answer × FileSystem :=
  match Request.read args with
  | .ok request => answer request fs
  | .error stop => (stopped stop, fs)

end ParamTree.CommandLine
