import ParamTree.Number.Decimal

/-!
# Arguments of a command line

Reading the arguments of a command: options with values, switches and operands.
An option takes its value after an equals sign or as the next argument. Two dashes
alone end the options. Some commands pass arguments on: for them an argument with
a dash that is not known is an operand, and so is all that follows the first
operand.

Arguments are read from left to right, and the first that decides the outcome,
by a request or by a mistake, ends the reading.
-/

namespace ParamTree.CommandLine

/-- What an argument looks like. -/
inductive Shape where
  /-- Two dashes. -/
  | separator
  /-- A word after two dashes, and the text after an equals sign in it. -/
  | long (name : String) (value : Option String)
  /-- Letters after one dash. -/
  | letters (cs : List Char)
  | plain
deriving DecidableEq, Repr

/-- The look of an argument. -/
def Shape.of (arg : String) : Shape :=
  match arg.toList with
  | ['-', '-'] => .separator
  | '-' :: '-' :: cs =>
    let name := String.ofList (cs.takeWhile (· ≠ '='))
    match cs.dropWhile (· ≠ '=') with
    | [] => .long name none
    | _ :: value => .long name (some (String.ofList value))
  | '-' :: c :: cs => .letters (c :: cs)
  | _ => .plain

/-- Why reading ends before the last argument. -/
inductive Stop where
  /-- Help is asked for. -/
  | help
  /-- The version is asked for. -/
  | version
  /-- The arguments are not what the command takes. -/
  | misuse
deriving DecidableEq, Repr

/-- What a switch does. -/
inductive Switch where
  /-- Asks for more messages about the run. -/
  | verbose
  | help
  | version
deriving DecidableEq, Repr

namespace Switch

/-- The switch with a long name. -/
def ofName? (known : List Switch) (name : String) : Option Switch :=
  let switch :=
    if name = "verbose" then some verbose
    else if name = "help" then some help
    else if name = "version" then some version
    else none
  switch.filter known.contains

/-- The switch with a letter. -/
def ofLetter? (known : List Switch) (c : Char) : Option Switch :=
  let switch :=
    if c = 'v' then some verbose
    else if c = 'h' then some help
    else if c = 'V' then some version
    else none
  switch.filter known.contains

/-- What a switch makes of the reading. -/
def apply : Switch → Except Stop Unit
  | verbose => .ok ()
  | help => .error .help
  | version => .error .version

/-- The effect of a row of letters, one by one. -/
def applyLetters (known : List Switch) : List Char → Except Stop Unit
  | [] => .ok ()
  | c :: cs =>
    match ofLetter? known c with
    | some switch => do
      switch.apply
      applyLetters known cs
    | none => .error .misuse

end Switch

/-- Which operands a command takes. -/
inductive Operands where
  | none
  /-- Operands among the options, none of them empty. -/
  | mixed
  /-- Whatever follows the options. -/
  | passedOn
deriving DecidableEq, Repr

/-- An option with a value: its name and which values it takes. -/
structure OptionRule where
  name : String
  accepts : String → Bool

/-- What a command takes. -/
structure Rules where
  options : List OptionRule
  switches : List Switch
  operands : Operands

/-- What has been read. -/
structure Arguments where
  /-- The options with their values. -/
  values : List (String × String) := []
  operands : List String := []
deriving DecidableEq, Repr

namespace Rules

/-- Adds the value of an option, which may be given once. -/
def addValue (rules : Rules) (name value : String) (args : Arguments) : Except Stop Arguments :=
  if (args.values.lookup name).isSome then .error .misuse
  else if rules.options.any fun o => o.name == name && o.accepts value then
    .ok { args with values := args.values ++ [(name, value)] }
  else .error .misuse

/-- Does the command take the operand? -/
def takesOperand (rules : Rules) (operand : String) : Bool :=
  match rules.operands with
  | .none => false
  | .mixed => !operand.isEmpty
  | .passedOn => true

/-- Adds operands. -/
def addOperands (rules : Rules) (operands : List String) (args : Arguments) :
    Except Stop Arguments :=
  if operands.all rules.takesOperand then .ok { args with operands := args.operands ++ operands }
  else .error .misuse

/-- Is an argument with a dash known to the command? -/
def knows (rules : Rules) : Shape → Bool
  | .long name _ =>
    rules.options.any (·.name == name) || (Switch.ofName? rules.switches name).isSome
  | .letters cs => cs.all fun c => (Switch.ofLetter? rules.switches c).isSome
  | .separator => true
  | .plain => false

/-- Reads arguments after those in `args`. `awaiting` is the option whose value
comes next. -/
def read (rules : Rules) (args : Arguments) : Option String → List String → Except Stop Arguments
  | none, [] => .ok args
  | some _, [] => .error .misuse
  | awaiting, arg :: rest =>
    let shape := Shape.of arg
    if rules.knows shape || (shape != .plain && rules.operands != .passedOn) then
      if awaiting.isSome then .error .misuse
      else
        match shape with
        | .separator => rules.addOperands rest args
        | .letters cs => do
          Switch.applyLetters rules.switches cs
          read rules args none rest
        | .long name value =>
          match Switch.ofName? rules.switches name, value with
          | some switch, none => do
            switch.apply
            read rules args none rest
          | some _, some _ => .error .misuse
          | none, some value => do read rules (← rules.addValue name value args) none rest
          | none, none =>
            if rules.knows shape then read rules args (some name) rest else .error .misuse
        | .plain => .error .misuse
    else
      match awaiting with
      | some name => do read rules (← rules.addValue name arg args) none rest
      | none =>
        if rules.operands = .passedOn then rules.addOperands (arg :: rest) args
        else do read rules (← rules.addOperands [arg] args) none rest

end Rules

end ParamTree.CommandLine
