import ParamTree.Document.Basic

/-!
# Command sets

A command set gives schemas names. The documents of a directory make one: each is
the command named by its file's stem, and files of other kinds are ignored, as are
those whose stem is no text. The commands are kept in the text order of their names,
which are distinct.
-/

namespace ParamTree

/-- Schemas by command name. -/
structure CommandSet where
  /-- The commands in the order of their names. -/
  commands : List (String × Schema) := []
  /-- The path of the directory that they come from, empty for none. -/
  origin : RawText := ""

/-- Why a command set could not be loaded. -/
inductive CommandSetError where
  | load (error : LoadError)
  /-- Two documents have one stem. -/
  | duplicate (name : String)
deriving DecidableEq, Repr

/-- Why tokens select no command. -/
inductive DispatchError where
  | unknownCommand (name : String) (available : List String)
  | noCommand (available : List String)
deriving DecidableEq, Repr

/-- The text of a loading error. -/
def CommandSetError.message : CommandSetError → String
  | load e => e.message
  | duplicate name => "command '" ++ name ++ "' is defined more than once"

/-- The text of a dispatch error. -/
def DispatchError.message : DispatchError → String
  | unknownCommand name available =>
    "unknown command '" ++ name ++ "' (available: " ++ ", ".intercalate available ++ ")"
  | noCommand available => "no command given (available: " ++ ", ".intercalate available ++ ")"

/-- The paths of the documents among the entries of a directory, in the order of their
bytes. -/
def documentPaths (fs : FileSystem) (directory : RawText) (names : List RawText) : List RawText :=
  let paths := names.mergeSort.map (Files.join directory)
  paths.filter fun path => fs.isFile path && (DocumentFormat.ofPath? path).isSome

/-- The command name of the document at a path: its stem, if that is a text. -/
def commandName? (path : RawText) : Option String := (Files.stem? path).bind RawText.text?

namespace CommandSet

/-- The schema of a command. -/
def get? (set : CommandSet) (name : String) : Option Schema := set.commands.lookup name

/-- Is there a command of this name? -/
def contains (set : CommandSet) (name : String) : Bool := (set.get? name).isSome

/-- The directory that the commands come from, as it is shown. -/
def directory (set : CommandSet) : String := set.origin.display

/-- The names of the commands. -/
def names (set : CommandSet) : List String := set.commands.map (·.1)

/-- Commands with one more, which replaces one of the same name. -/
def place (name : String) (schema : Schema) : List (String × Schema) → List (String × Schema)
  | [] => [(name, schema)]
  | (n, s) :: rest =>
    if n = name then (name, schema) :: rest
    else if name < n then (name, schema) :: (n, s) :: rest
    else (n, s) :: place name schema rest

/-- The set with one more command, which replaces one of the same name. -/
def insert (set : CommandSet) (name : String) (schema : Schema) : CommandSet :=
  { set with commands := place name schema set.commands }

/-- The set of given commands; of two with one name the later counts. -/
def ofSchemas (commands : List (String × Schema)) : CommandSet :=
  commands.foldl (fun set c => set.insert c.1 c.2) {}

/-- The set with the documents at the given paths. A document without a command name is
left out. A name is checked before its document is read. -/
def loadAll (fs : FileSystem) (set : CommandSet) : List RawText → Except CommandSetError CommandSet
  | [] => .ok set
  | path :: rest =>
    match commandName? path with
    | none => loadAll fs set rest
    | some name =>
      if set.contains name then .error (.duplicate name)
      else
        match Document.loadSchema fs path with
        | .ok schema => loadAll fs (set.insert name schema) rest
        | .error e => .error (.load e)

/-- The set of the documents in a directory whose entries have the given names. -/
def ofListing (fs : FileSystem) (directory : RawText) (names : List RawText) :
    Except CommandSetError CommandSet :=
  loadAll fs { origin := directory } (documentPaths fs directory names)

/-- The set of the documents in the directory at a path. -/
def ofDirectory (fs : FileSystem) (directory : RawText) : Except CommandSetError CommandSet :=
  match fs.list directory with
  | .ok names => ofListing fs directory names
  | .error failure => .error (.load (.file failure))

/-- The command that tokens start with, and the tokens after its name. -/
def dispatch (set : CommandSet) :
    List String → Except DispatchError (String × Schema × List String)
  | [] => .error (.noCommand set.names)
  | name :: rest =>
    match set.get? name with
    | some schema => .ok (name, schema, rest)
    | none => .error (.unknownCommand name set.names)

end CommandSet

end ParamTree
