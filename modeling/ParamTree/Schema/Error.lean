import ParamTree.Schema.ParamPath
import ParamTree.Schema.Arguments

/-!
# Defects of schema documents

Why a document is no schema, each with the path of the node at fault.
-/

namespace ParamTree

/-- A breach of the schema grammar. -/
inductive Malformation where
  | nodeNotMapping
  | rootNotObject
  | helpLevel
  | simpleTag
  | emptyEnum
  | emptyOneOf
  | enumOnUnion
  | enumOnComposite
  | typeNameNotString
  | emptyType
  | typeNotNames
  | propertiesNotMapping
  | entryCount (entries : Nat)
  | entryShape
  | aliasEntry
  | aliasShape
  | textExpected (keyword : String)
deriving DecidableEq, Repr

/-- The text of a breach. -/
def Malformation.message : Malformation → String
  | nodeNotMapping => "a schema node must be a mapping"
  | rootNotObject => "the root schema must be an object"
  | helpLevel => "x-help must be a non-negative integer"
  | simpleTag => "x-simpletag must be a boolean"
  | emptyEnum => "enum must be a non-empty sequence"
  | emptyOneOf => "oneOf must be a non-empty sequence"
  | enumOnUnion => "enum belongs on the oneOf alternatives"
  | enumOnComposite => "enum is only supported on scalar nodes"
  | typeNameNotString => "type names must be strings"
  | emptyType => "type must not be an empty sequence"
  | typeNotNames => "type must be a string or a sequence"
  | propertiesNotMapping => "properties must be a mapping"
  | entryCount entries =>
    "an action or check entry must be a name or a one-entry mapping, got " ++
      toString entries ++ " entries"
  | entryShape => "an action or check entry must be a name or a one-entry mapping"
  | aliasEntry => "x-alias entries must be strings"
  | aliasShape => "x-alias must be a string or a sequence of strings"
  | textExpected keyword => keyword ++ " must be a string"

/-- Why a document is no schema. -/
inductive SchemaFault where
  | malformed (fault : Malformation)
  | unknownType (name : String)
  | unknownAction (name : String)
  | unknownCheck (name : String)
  | invalidArguments (name : String) (fault : ArgumentFault)
  /-- The tag belongs to the flag at `other` already. -/
  | duplicateFlag (tag : String) (other : ParamPath)
  /-- The tag asks for help. -/
  | reservedFlag (tag : String)
  /-- The name or tag cannot be typed. -/
  | invalidFlagName (tag : String)
deriving DecidableEq, Repr

/-- A fault and the path of the node that has it. -/
structure SchemaError where
  path : ParamPath
  fault : SchemaFault
deriving DecidableEq, Repr

/-- The text of a schema error. -/
def SchemaError.message (e : SchemaError) : String :=
  let place := e.path.text
  match e.fault with
  | .malformed fault => "malformed schema at " ++ place ++ ": " ++ fault.message
  | .unknownType name => "unknown type '" ++ name ++ "' at " ++ place
  | .unknownAction name => "unknown action '" ++ name ++ "' at " ++ place
  | .unknownCheck name => "unknown check '" ++ name ++ "' at " ++ place
  | .invalidArguments name fault =>
    "invalid parameters for '" ++ name ++ "' at " ++ place ++ ": " ++ fault.message
  | .duplicateFlag tag other =>
    "flag '" ++ tag ++ "' at " ++ place ++ " collides with the flag at " ++ other.text
  | .reservedFlag tag => "flag '" ++ tag ++ "' at " ++ place ++ " is reserved for help"
  | .invalidFlagName tag => "invalid flag name '" ++ tag ++ "' at " ++ place

end ParamTree
