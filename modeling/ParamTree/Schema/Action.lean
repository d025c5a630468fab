import ParamTree.Schema.Arguments
import ParamTree.Files.System

/-!
# Actions and checks

The closed catalogue of what a node may do with its value once that has its type.
An action may change the value (`makeList`, `makeDict`, `convert`), make
directories (`makeDir`), or replace the value of a flag that was given without
one (the presence actions). A check only looks.

`Action.catalogue` and `Check.catalogue` are the tables by name; a schema is
built through them, so resolution meets typed actions only.
-/

namespace ParamTree

/-- A transform of a resolved value. -/
inductive Action where
  /-- Wraps a value that is no sequence into a sequence of one. -/
  | makeList
  /-- Wraps a value that is no mapping into a mapping under `key`. -/
  | makeDict (key : String)
  /-- A flag without a value means `true`. -/
  | setTrue
  /-- A flag without a value means `false`. -/
  | setFalse
  /-- A flag without a value means `value`. -/
  | setValue (value : Value)
  /-- Makes the directory that the value names, or each that a sequence names. -/
  | makeDir (mode : Option Nat) (existOk : Bool)
  /-- Converts the value, or each element of a sequence. -/
  | convert (target : ScalarType)
deriving DecidableEq, Repr

/-- A condition on a resolved value. -/
inductive Check where
  | pathExists
  | fileExists
  | dirExists
deriving DecidableEq, Repr

/-- Why an action failed. -/
inductive ActionFault where
  | createDir (path : String) (failure : FileFailure)
  | notAPath (found : Value)
  | notConvertible (found : Value) (target : ScalarType)
deriving DecidableEq, Repr

/-- Why a check failed. -/
inductive CheckFault where
  | pathMissing (path : String)
  | fileMissing (path : String)
  | dirMissing (path : String)
  | notAPath (found : Value)
deriving DecidableEq, Repr

/-- The text of a fault. -/
def ActionFault.message : ActionFault → String
  | createDir path failure => "cannot create directory '" ++ path ++ "': " ++ failure.message
  | notAPath found => "expected a path string, found " ++ describe found
  | notConvertible found target =>
    "cannot convert " ++ describe found ++ " to " ++ target.name

/-- The text of a fault. -/
def CheckFault.message : CheckFault → String
  | pathMissing path => "path does not exist: " ++ path
  | fileMissing path => "file does not exist: " ++ path
  | dirMissing path => "directory does not exist: " ++ path
  | notAPath found => "expected a path string, found " ++ describe found

/-- A computation that reads and extends the file system and may fail; the file
system that it leaves is kept on failure too. -/
abbrev FileM (ε : Type) := EStateM ε FileSystem

namespace Action

/-! ## Building -/

/-- The builder of an action without parameters. -/
def plain (action : Action) (args : Arguments) : Except ArgumentFault Action := do
  args.atMost []
  return action

/-- The builder of `makeDict`. -/
def buildMakeDict (args : Arguments) : Except ArgumentFault Action := do
  args.atMost ["key"]
  match args.get? 0 "key" with
  | none => throw (.missing "key")
  | some (.array _) | some (.object _) | some .null => throw (.notScalar "key")
  | some scalar => return .makeDict (renderLiteral scalar)

/-- The builder of `setValue`. -/
def buildSetValue (args : Arguments) : Except ArgumentFault Action := do
  args.atMost ["value"]
  match args.get? 0 "value" with
  | none => throw (.missing "value")
  | some value => return .setValue value

/-- The greatest permission mask. -/
def maxMode : Nat := 0o7777

/-- The mode argument of `makeDir`. -/
def modeOf (raw : Value) : Except ArgumentFault Nat :=
  match raw.asNat? with
  | some mode => if mode ≤ maxMode then .ok mode else .error (.notPermissionMask raw)
  | none => .error (.notPermissionMask raw)

/-- The builder of `makeDir`. -/
def buildMakeDir (args : Arguments) : Except ArgumentFault Action := do
  args.atMost ["mode", "exist_ok"]
  let mode ← match args.get? 0 "mode" with
    | none => pure none
    | some raw => some <$> modeOf raw
  let existOk ← match args.get? 1 "exist_ok" with
    | none => pure true
    | some (.bool b) => pure b
    | some raw => throw (.notBoolean "exist_ok" raw)
  return .makeDir mode existOk

/-- The builder of `convert`. -/
def buildConvert (args : Arguments) : Except ArgumentFault Action := do
  args.atMost ["dtype"]
  match (args.get? 0 "dtype").bind Value.asString? with
  | none => throw (.missing "dtype")
  | some name =>
    match Primitive.ofName? name with
    | some (.typed target) => return .convert target
    | _ => throw (.notConvertible name)

/-- Every action name with the builder behind it. -/
def catalogue : List (String × (Arguments → Except ArgumentFault Action)) :=
  [("MakeList", plain .makeList),
   ("MakeDict", buildMakeDict),
   ("SetTrue", plain .setTrue),
   ("SetFalse", plain .setFalse),
   ("SetValue", buildSetValue),
   ("MakeDir", buildMakeDir),
   ("Convert", buildConvert)]

/-- The action with the given name and arguments. -/
def build (name : String) (args : Arguments) : Except RegistryFault Action :=
  match catalogue.lookup name with
  | none => .error .unknown
  | some builder => (builder args).mapError .invalid

/-! ## Views -/

/-- The name of an action in a schema. -/
def name : Action → String
  | makeList => "MakeList"
  | makeDict _ => "MakeDict"
  | setTrue => "SetTrue"
  | setFalse => "SetFalse"
  | setValue _ => "SetValue"
  | makeDir _ _ => "MakeDir"
  | convert _ => "Convert"

/-- The value that a presence action gives to a flag without a value. -/
def presence? : Action → Option Value
  | setTrue => some (.bool true)
  | setFalse => some (.bool false)
  | setValue value => some value
  | _ => none

/-- Is this a presence action? It takes part only where a flag came without a value. -/
def isPresence (a : Action) : Bool := a.presence?.isSome

end Action

/-! ## Paths in values -/

mutual

/-- Runs `f` on the path that a value names, or on each path of a sequence, and
stops at the first failure. -/
def forEachPath {ε : Type} (notAPath : Value → ε) (f : String → FileM ε Unit) : Value → FileM ε Unit
  | .string path => f path
  | .array items => forEachPathIn notAPath f items
  | other => throw (notAPath other)

/-- `forEachPath` on each item in turn. -/
def forEachPathIn {ε : Type} (notAPath : Value → ε) (f : String → FileM ε Unit) :
    List Value → FileM ε Unit
  | [] => pure ()
  | v :: vs => do
    forEachPath notAPath f v
    forEachPathIn notAPath f vs

end

/-- Makes one directory and its missing parents. A directory that is there
already is a failure unless `existOk`. -/
def makeDirAt (mode : Option Nat) (existOk : Bool) (path : String) : FileM ActionFault Unit := do
  let fs ← get
  if fs.isDirectory path then
    if existOk then pure () else throw (.createDir path .directoryExists)
  else
    let (fs, failure) := fs.makeTree (mode.getD FileSystem.defaultMode) path
    set fs
    match failure with
    | none => pure ()
    | some failure => throw (.createDir path failure)

/-! ## Applying -/

mutual

/-- A value with every leaf of its sequences converted, or the first leaf that
cannot be. -/
def convertLeaves (target : ScalarType) : Value → Except ActionFault Value
  | .array items => do return .array (← convertItems target items)
  | leaf =>
    match target.convert leaf with
    | some v => .ok v
    | none => .error (.notConvertible leaf target)

/-- `convertLeaves` on each item in turn. -/
def convertItems (target : ScalarType) : List Value → Except ActionFault (List Value)
  | [] => .ok []
  | v :: vs => do
    let w ← convertLeaves target v
    let ws ← convertItems target vs
    return w :: ws

end

/-- Applies an action to a value. -/
def Action.apply : Action → Value → FileM ActionFault Value
  | .makeList, .array items => pure (.array items)
  | .makeList, other => pure (.array [other])
  | .makeDict _, .object entries => pure (.object entries)
  | .makeDict key, other => pure (.object [(key, other)])
  | .setTrue, _ => pure (.bool true)
  | .setFalse, _ => pure (.bool false)
  | .setValue value, _ => pure value
  | .makeDir mode existOk, value => do
    forEachPath .notAPath (makeDirAt mode existOk) value
    return value
  | .convert target, value =>
    match convertLeaves target value with
    | .ok v => pure v
    | .error fault => throw fault

/-! ## Checks -/

namespace Check

/-- Every check name with the check behind it. -/
def catalogue : List (String × Check) :=
  [("PathExists", .pathExists), ("FileExists", .fileExists), ("DirExists", .dirExists)]

/-- The name of a check in a schema. -/
def name : Check → String
  | pathExists => "PathExists"
  | fileExists => "FileExists"
  | dirExists => "DirExists"

/-- The check with the given name. Checks take no arguments. -/
def build (name : String) (args : Arguments) : Except RegistryFault Check :=
  match catalogue.lookup name with
  | none => .error .unknown
  | some check =>
    match args.atMost [] with
    | .ok () => .ok check
    | .error fault => .error (.invalid fault)

/-- Looks at one path. -/
def runAt (check : Check) (path : String) : FileM CheckFault Unit := do
  let fs ← get
  match check with
  | pathExists => if fs.pathExists path then pure () else throw (.pathMissing path)
  | fileExists => if fs.isFile path then pure () else throw (.fileMissing path)
  | dirExists => if fs.isDirectory path then pure () else throw (.dirMissing path)

/-- Looks at every path that a value names. -/
def run (check : Check) (value : Value) : FileM CheckFault Unit :=
  forEachPath .notAPath check.runAt value

end Check

end ParamTree
