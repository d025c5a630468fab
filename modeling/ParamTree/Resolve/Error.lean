import ParamTree.Schema.Flag

/-!
# Failures of a resolution

Why tokens cannot be read or a parameter tree cannot be resolved. A failure at a
node carries its path.
-/

namespace ParamTree

/-- Why a resolution failed. -/
inductive ResolveError where
  /-- The config gives a key that the schema does not declare. -/
  | unknownKey (path : ParamPath)
  /-- No source gives a value and there is no default. -/
  | missingRequired (path : ParamPath)
  /-- A value is not of the expected type. -/
  | typeMismatch (path : ParamPath) (expected : String) (found : Value)
  /-- No alternative of a union takes the value. -/
  | noAlternative (path : ParamPath) (found : Value) (alternatives : List String)
  /-- A value is no member of the enumeration. -/
  | invalidEnum (path : ParamPath) (value : Value) (allowed : List Value)
  | checkFailed (path : ParamPath) (check : Check) (fault : CheckFault)
  | actionFailed (path : ParamPath) (action : Action) (fault : ActionFault)
  /-- A dashed token in flag position is no tag. -/
  | unknownFlag (tag : String)
  /-- A value comes before any flag. -/
  | unexpectedToken (token : String)
  /-- A flag for one value got several. -/
  | tooManyValues (path : ParamPath) (tag : String) (count : Nat)
deriving DecidableEq, Repr

namespace ResolveError

/-- The path of the node that a failure concerns. -/
def path? : ResolveError → Option ParamPath
  | unknownKey path | missingRequired path | typeMismatch path .. | noAlternative path ..
  | invalidEnum path .. | checkFailed path .. | actionFailed path .. | tooManyValues path .. =>
    some path
  | unknownFlag _ | unexpectedToken _ => none

/-- A list of texts in a message. -/
def listed (texts : List String) : String := ", ".intercalate texts

/-- The text of a failure. -/
def message : ResolveError → String
  | unknownKey path => "unknown key at " ++ path.text
  | missingRequired path => "missing required value at " ++ path.text
  | typeMismatch path expected found =>
    "type mismatch at " ++ path.text ++ ": expected " ++ expected ++ ", found " ++ describe found
  | noAlternative path found alternatives =>
    "no alternative at " ++ path.text ++ " matches " ++ describe found ++
      " (tried " ++ listed alternatives ++ ")"
  | invalidEnum path value allowed =>
    "invalid value " ++ renderLiteral value ++ " at " ++ path.text ++
      " (expected one of " ++ listed (allowed.map renderLiteral) ++ ")"
  | checkFailed path check fault =>
    "check " ++ check.name ++ " failed at " ++ path.text ++ ": " ++ fault.message
  | actionFailed path action fault =>
    "action " ++ action.name ++ " failed at " ++ path.text ++ ": " ++ fault.message
  | unknownFlag tag => "unknown flag: " ++ tag
  | unexpectedToken token => "unexpected token '" ++ token ++ "' before any flag"
  | tooManyValues path tag count =>
    "flag " ++ tag ++ " at " ++ path.text ++ " takes one value, got " ++ toString count

end ResolveError

end ParamTree
