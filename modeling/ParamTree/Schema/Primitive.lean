import ParamTree.Value.Basic
import ParamTree.Json.Printer
import ParamTree.Text.Blank

/-!
# Scalar types and literals

What a scalar of each type admits (`ScalarType.admits`), how a raw value is read
as one (`ScalarType.coerce`), how a value is converted to one more freely
(`ScalarType.convert`), and which member of an enumeration a value stands for
(`enumMember`). Coercion leaves typed values alone and gives a text one attempt.
-/

namespace ParamTree

/-- A declared scalar type. -/
inductive ScalarType where
  | string
  | integer
  | number
  | boolean
deriving DecidableEq, Repr

/-- The type of a scalar node; `any` where none is declared. -/
inductive Primitive where
  | typed (t : ScalarType)
  | any
deriving DecidableEq, Repr

namespace ScalarType

/-- The name of a type in a schema. -/
def name : ScalarType → String
  | string => "string"
  | integer => "integer"
  | number => "number"
  | boolean => "boolean"

/-- The short form of a type in flag summaries. -/
def summary : ScalarType → String
  | string => "str"
  | integer => "int"
  | number => "float"
  | boolean => "bool"

/-- Is the value of this type? An integer is a number that a word holds. -/
def admits : ScalarType → Value → Bool
  | string, .string _ => true
  | integer, .number (.integer _) => true
  | number, .number _ => true
  | boolean, .bool _ => true
  | _, _ => false

end ScalarType

namespace Primitive

/-- The primitive with the given schema name. -/
def ofName? : String → Option Primitive
  | "string" => some (.typed .string)
  | "integer" => some (.typed .integer)
  | "number" => some (.typed .number)
  | "boolean" => some (.typed .boolean)
  | "any" => some .any
  | _ => none

/-- The name of a primitive in a schema. -/
def name : Primitive → String
  | typed t => t.name
  | any => "any"

/-- The short form of a primitive in flag summaries. -/
def summary : Primitive → String
  | typed t => t.summary
  | any => "any"

/-- Is the value of this type? Every value is where none is declared. -/
def admits : Primitive → Value → Bool
  | typed t, v => t.admits v
  | any, _ => true

end Primitive

/-! ## Literals -/

/-- The truth value that a word stands for, blanks around it and letter case
aside. -/
def parseBool (text : String) : Option Bool :=
  let word := (Text.trim text).map Char.toLower
  if ["true", "t", "yes", "y", "on", "1"].contains word then some true
  else if ["false", "f", "no", "n", "off", "0"].contains word then some false
  else none

/-- The integer that a text stands for, if a signed word holds it. -/
def parseInteger (text : String) : Option Integer64 :=
  (intIn? 10 (Text.trim text).toList).bind Integer64.ofSigned?

/-- The finite float nearest to the decimal that a text stands for. -/
def parseFloat (text : String) : Option Binary64 :=
  (Decimal.read? (Text.trim text).toList).bind Decimal.toBinary64?

/-- A literal as it would be typed: a string bare, all else as compact JSON. -/
def renderLiteral : Value → String
  | .string s => s
  | other => Json.compact other

/-- The shape of a value, for messages. -/
def describe : Value → String
  | .null => "null"
  | .bool b => "boolean " ++ (if b then "true" else "false")
  | .number (.float x) => "number " ++ x.text .json
  | .number (.integer n) => "integer " ++ toString n.val
  | .string s => "string \"" ++ s ++ "\""
  | .array items => "sequence of " ++ toString items.length ++ " item(s)"
  | .object entries => "mapping with " ++ toString entries.length ++ " key(s)"

/-! ## Coercion and conversion -/

/-- The value that a text stands for as a scalar of the given type. -/
def ScalarType.ofText : ScalarType → String → Option Value
  | .string, s => some (.string s)
  | .integer, s => (parseInteger s).map fun n => .number (.integer n)
  | .number, s => (parseFloat s).map fun x => .number (.float x)
  | .boolean, s => (parseBool s).map .bool

/-- A raw value as a scalar of the given type: a typed value is kept, a text is
read once, all else is refused. -/
def ScalarType.coerce (t : ScalarType) (v : Value) : Option Value :=
  match v with
  | .string s => t.ofText s
  | other => if t.admits other then some other else none

/-- A raw value as a scalar of the given type; any value where none is declared. -/
def Primitive.coerce : Primitive → Value → Option Value
  | .typed t, v => t.coerce v
  | .any, v => some v

/-- The integer of a float that has no fraction and is inside the signed range. -/
def integerOfFloat? (x : Binary64) : Option Value := do
  let i ← x.whole?
  if i.natAbs < twoTo 63 then Value.ofInt? i else none

/-- What coercion refuses and conversion takes: numbers and booleans as text,
whole floats and booleans as integers, booleans as numbers, numbers as booleans. -/
def ScalarType.convertOther : ScalarType → Value → Option Value
  | .string, .number n => some (.string (renderLiteral (.number n)))
  | .string, .bool b => some (.string (renderLiteral (.bool b)))
  | .integer, .number n => integerOfFloat? n.asFloat
  | .integer, .bool b => Value.ofInt? (if b then 1 else 0)
  | .number, .bool b => some (.number (.float (if b then .one else .zero)))
  | .boolean, .number n => some (.bool (!n.asFloat.isZero))
  | _, _ => none

/-- A value converted to the given type. -/
def ScalarType.convert (t : ScalarType) (v : Value) : Option Value :=
  match t.coerce v with
  | some w => some w
  | none => t.convertOther v

/-! ## Enumerations -/

/-- Does a value stand for a literal of an enumeration? It says the same, is a
number of the same float value, or is the text of a literal that is neither a
string nor a collection. -/
def standsFor (v literal : Value) : Bool :=
  literal.sameAs v ||
    match literal, v with
    | .number a, .number b => a.asFloat.sameAs b.asFloat
    | .string _, _ => false
    | .array _, _ => false
    | .object _, _ => false
    | other, .string s => renderLiteral other == s
    | _, _ => false

/-- The first literal that a value stands for. -/
def enumMember (v : Value) (allowed : List Value) : Option Value :=
  allowed.find? (standsFor v)

end ParamTree
