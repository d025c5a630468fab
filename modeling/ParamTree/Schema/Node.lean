import ParamTree.Schema.Action

/-!
# Schema nodes

A schema is a tree of nodes: objects with declared properties, arrays, unions of
alternatives, and scalars. What every node may carry besides its shape is one
`Attributes` record; only a scalar has an enumeration.
-/

namespace ParamTree

/-- What a node carries besides its shape. -/
structure Attributes where
  /-- The value used where no source gives one. -/
  default : Option Value := none
  /-- Transforms of the resolved value, in order. -/
  actions : List Action := []
  /-- Conditions on the transformed value, in order. -/
  checks : List Check := []
  /-- From which help level on the node is shown. -/
  helpLevel : Nat := 0
  description : Option String := none
  /-- Further tags of the node's flag. -/
  aliases : List String := []
  /-- Is the flag named by the property alone, without the enclosing objects? -/
  simpleTag : Bool := true
deriving DecidableEq, Repr

/-- A node of a schema. -/
inductive Node where
  /-- A mapping with declared properties, in order. -/
  | object (attrs : Attributes) (properties : List (String × Node))
  /-- A sequence whose elements follow `items`. -/
  | array (attrs : Attributes) (items : Node)
  /-- Shapes in order of preference; the first that fits is taken. -/
  | union (attrs : Attributes) (alternatives : List Node)
  /-- A leaf, with the literals it is limited to, if any. -/
  | scalar (attrs : Attributes) (type : Primitive) (choices : Option (List Value))
deriving Repr

/-- The declared properties of an object, in order. -/
abbrev Properties := List (String × Node)

namespace Attributes

/-- Is null the default? -/
def admitsNull (a : Attributes) : Bool :=
  match a.default with
  | some .null => true
  | _ => false

/-- Does a value that is no sequence become one? -/
def makesList (a : Attributes) : Bool := a.actions.any (· == .makeList)

/-- The value of the last presence action. -/
def presence? (a : Attributes) : Option Value := a.actions.reverse.findSome? Action.presence?

end Attributes

namespace Node

/-- The attributes of a node. -/
def attrs : Node → Attributes
  | object a _ | array a _ | union a _ | scalar a _ _ => a

/-- Is the node an object? -/
def isObject : Node → Bool
  | object .. => true
  | _ => false

/-- Is the node an array? -/
def isArray : Node → Bool
  | array .. => true
  | _ => false

/-- The declared properties of an object, none elsewhere. -/
def properties : Node → Properties
  | object _ ps => ps
  | _ => []

/-- The declared property with the given name. -/
def property? (n : Node) (name : String) : Option Node := n.properties.lookup name

/-- Does a flag of this node take any number of values? Arrays do, and unions
with an array among their alternatives. -/
def isVariadic : Node → Bool
  | array .. => true
  | union _ alternatives => alternatives.any isArray
  | _ => false

/-- Is the node a boolean scalar? -/
def isBoolean : Node → Bool
  | scalar _ (.typed .boolean) _ => true
  | _ => false

/-- May a flag of this node come without a value? -/
def acceptsBareFlag (n : Node) : Bool := n.isBoolean || n.attrs.presence?.isSome

/-- The list with each run of equal neighbours written once. -/
def squeeze : List String → List String
  | [] => []
  | s :: rest =>
    match squeeze rest with
    | t :: more => if s = t then t :: more else s :: t :: more
    | [] => [s]

/-- The summary of a union without an array: the one that its alternatives that
are no objects share. -/
def shareSummary (summaries : List String) : String :=
  match squeeze summaries with
  | [] => "dict"
  | [only] => only
  | _ => "any"

mutual

/-- The type of a node as flags show it. A union shows its first array if it has
one. -/
def typeSummary : Node → String
  | scalar _ type _ => type.summary
  | array _ items => "[" ++ typeSummary items ++ "]"
  | object .. => "dict"
  | union _ alternatives =>
    match firstArraySummary alternatives with
    | some summary => summary
    | none => shareSummary (leafSummaries alternatives)

/-- The summary of the first array among alternatives. -/
def firstArraySummary : List Node → Option String
  | [] => none
  | n :: rest => if n.isArray then some (typeSummary n) else firstArraySummary rest

/-- The summaries of the alternatives that are no objects. -/
def leafSummaries : List Node → List String
  | [] => []
  | n :: rest => if n.isObject then leafSummaries rest else typeSummary n :: leafSummaries rest

end

/-- A scalar node that carries nothing. -/
def plainScalar (type : Primitive) : Node := .scalar {} type none

end Node

end ParamTree
