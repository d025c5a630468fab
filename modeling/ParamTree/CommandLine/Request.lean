import ParamTree.CommandLine.Arguments
import ParamTree.Report.FlagTable

/-!
# Requests

What the program is asked to do: one of five commands with its options, read from
the arguments by `Request.read`.
-/

namespace ParamTree.CommandLine

/-- What the program is asked to do. -/
inductive Request where
  /-- Resolve the parameters of a schema. -/
  | resolve (schema : String) (config : Option String) (format : DocumentFormat)
      (tokens : List String)
  /-- List the flags of a schema up to a level. -/
  | flags (schema : String) (level : Option Nat) (format : Report.FlagsFormat)
  /-- Show the help page of a schema. -/
  | help (schema : String) (level : Nat)
  /-- Try schema documents and the documents in directories. -/
  | validate (inputs : List String)
  /-- Resolve the parameters of one command of a directory of schemas. -/
  | run (commands : String) (config : Option String) (format : DocumentFormat)
      (tokens : List String)
deriving DecidableEq, Repr

/-- The level that an argument spells. -/
def levelOf? (arg : String) : Option Nat :=
  (intIn? 10 arg.toList).bind fun i =>
    if 0 ≤ i && i ≤ Schema.maxLevel then some i.toNat else none

/-! ## Options -/

/-- An option with a path. -/
def pathOption (name : String) : OptionRule := ⟨name, fun value => !value.isEmpty⟩

/-- The option with a help level. -/
def levelOption : OptionRule := ⟨"level", fun value => (levelOf? value).isSome⟩

/-- The option with the format of parameters. -/
def paramsFormatOption : OptionRule :=
  ⟨"format", fun value => (DocumentFormat.ofName? value).isSome⟩

/-- The option with the format of a flag list. -/
def flagsFormatOption : OptionRule :=
  ⟨"format", fun value => (Report.FlagsFormat.ofName? value).isSome⟩

/-- The rules of a command. -/
def commandRules (options : List OptionRule) (operands : Operands) : Rules :=
  ⟨options, [.verbose, .help], operands⟩

/-- The value of an option that must be given. -/
def Arguments.required (args : Arguments) (name : String) : Except Stop String :=
  match args.values.lookup name with
  | some value => .ok value
  | none => .error .misuse

/-- The value of an option as something else, where it is given. -/
def Arguments.optional {α : Type} (args : Arguments) (name : String) (parse : String → Option α) :
    Option α :=
  (args.values.lookup name).bind parse

/-! ## Commands -/

/-- The request of the arguments after the name of a command. -/
def readCommand (name : String) (rest : List String) : Except Stop Request :=
  if name = "resolve" then do
    let options := [pathOption "schema", pathOption "config", paramsFormatOption]
    let args ← (commandRules options .passedOn).read {} none rest
    return .resolve (← args.required "schema") (args.optional "config" some)
      ((args.optional "format" DocumentFormat.ofName?).getD .json) args.operands
  else if name = "flags" then do
    let options := [pathOption "schema", levelOption, flagsFormatOption]
    let args ← (commandRules options .none).read {} none rest
    return .flags (← args.required "schema") (args.optional "level" levelOf?)
      ((args.optional "format" Report.FlagsFormat.ofName?).getD .table)
  else if name = "help" then do
    let options := [pathOption "schema", levelOption]
    let args ← (commandRules options .none).read {} none rest
    return .help (← args.required "schema") ((args.optional "level" levelOf?).getD 0)
  else if name = "validate" then do
    let args ← (commandRules [] .mixed).read {} none rest
    if args.operands.isEmpty then .error .misuse else return .validate args.operands
  else if name = "run" then do
    let options := [pathOption "commands", pathOption "config", paramsFormatOption]
    let args ← (commandRules options .passedOn).read {} none rest
    return .run (← args.required "commands") (args.optional "config" some)
      ((args.optional "format" DocumentFormat.ofName?).getD .json) args.operands
  else .error .misuse

/-- The switches that stand before the command. -/
def leadingSwitches : List Switch := [.verbose, .help, .version]

/-- The request of all arguments. -/
def Request.read : List String → Except Stop Request
  | [] => .error .misuse
  | arg :: rest =>
    match Shape.of arg with
    | .plain => readCommand arg rest
    | .letters cs => do
      Switch.applyLetters leadingSwitches cs
      Request.read rest
    | .long name none =>
      match Switch.ofName? leadingSwitches name with
      | some switch => do
        switch.apply
        Request.read rest
      | none => .error .misuse
    | .long _ (some _) | .separator => .error .misuse

end ParamTree.CommandLine
