import ParamTree.Schema.Primitive

/-!
# Arguments of actions and checks

A schema gives an action its arguments by name (a mapping), by place (a
sequence) or as one value. `Arguments.get?` looks a parameter up under both; its
name wins over its place.
-/

namespace ParamTree

/-- The arguments given to an action or a check. -/
structure Arguments where
  /-- Arguments by place. -/
  positional : List Value := []
  /-- Arguments by name. -/
  named : Entries := []
deriving DecidableEq, Repr

/-- Why arguments cannot be used. -/
inductive ArgumentFault where
  | tooMany (limit given : Nat)
  | unexpected (name : String)
  | missing (name : String)
  | notScalar (name : String)
  | notPermissionMask (given : Value)
  | notBoolean (name : String) (given : Value)
  | notConvertible (typeName : String)
deriving DecidableEq, Repr

/-- The text of a fault. -/
def ArgumentFault.message : ArgumentFault → String
  | tooMany limit given =>
    "expected at most " ++ toString limit ++ " parameter(s), got " ++ toString given
  | unexpected name => "unexpected parameter '" ++ name ++ "'"
  | missing name => "missing parameter '" ++ name ++ "'"
  | notScalar name => "'" ++ name ++ "' must be a scalar"
  | notPermissionMask given => "'mode' must be a permission mask, got " ++ Json.compact given
  | notBoolean name given => "'" ++ name ++ "' must be a boolean, got " ++ Json.compact given
  | notConvertible typeName => "cannot convert to '" ++ typeName ++ "'"

/-- Why a name with arguments is no action or check. -/
inductive RegistryFault where
  /-- Nothing is registered under the name. -/
  | unknown
  | invalid (fault : ArgumentFault)
deriving DecidableEq, Repr

/-- The text of a fault. -/
def RegistryFault.message : RegistryFault → String
  | unknown => "not registered"
  | invalid fault => fault.message

namespace Arguments

/-- The arguments that a value gives. -/
def ofValue : Option Value → Arguments
  | none | some .null => {}
  | some (.object named) => { named }
  | some (.array positional) => { positional }
  | some single => { positional := [single] }

/-- The argument under a name or, failing that, at a place. -/
def get? (args : Arguments) (place : Nat) (name : String) : Option Value :=
  match args.named.lookup name with
  | some v => some v
  | none => args.positional[place]?

/-- Refuses arguments beyond the parameters with the given names. -/
def atMost (args : Arguments) (parameters : List String) : Except ArgumentFault Unit :=
  if parameters.length < args.positional.length then
    .error (.tooMany parameters.length args.positional.length)
  else
    match args.named.find? fun entry => !parameters.contains entry.1 with
    | some (name, _) => .error (.unexpected name)
    | none => .ok ()

end Arguments

end ParamTree
