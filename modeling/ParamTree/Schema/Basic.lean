import ParamTree.Schema.Flag

/-!
# Schemas

A schema is a tree of nodes under an object together with the flags derived from
it. `Schema.ofValue` reads one from a document and reports the first defect.

`buildNode` checks the keywords of a node in a fixed order: help level, simple
tag, enumeration, shape, actions, checks, description, aliases. A list of type
names is a union of one alternative per name, and an enumeration beside it moves
to the scalars among them.
-/

namespace ParamTree

/-- A schema with its flags. -/
structure Schema where
  title : Option String
  description : Option String
  /-- The tree; its root is an object. -/
  root : Node
  flags : FlagTable

/-- What a node takes over from the mapping around it. -/
structure Inherited where
  helpLevel : Nat := 0
  simpleTag : Bool := true
deriving DecidableEq, Repr

/-- The shape of a node, before its attributes are known. -/
inductive Kind where
  | object (properties : Properties)
  | array (items : Node)
  | union (alternatives : List Node)
  | scalar (type : Primitive)

namespace Kind

/-- Is this the shape of a scalar? -/
def isScalar : Kind → Bool
  | scalar _ => true
  | _ => false

/-- The node of a shape. Literals stay with a scalar only. -/
def toNode (attrs : Attributes) (choices : Option (List Value)) : Kind → Node
  | object properties => .object attrs properties
  | array items => .array attrs items
  | union alternatives => .union attrs alternatives
  | scalar type => .scalar attrs type choices

end Kind

namespace Schema

/-- A breach of the grammar at a path. -/
def malformed (path : ParamPath) (fault : Malformation) : SchemaError := ⟨path, .malformed fault⟩

/-- The greatest help level. -/
def maxLevel : Nat := twoTo 32 - 1

/-! ## Keywords -/

/-- The settings in effect at a node: its own, else those around it. -/
def settings (path : ParamPath) (inherited : Inherited) (entries : Entries) :
    Except SchemaError Inherited := do
  let helpLevel ← match entries.lookup "x-help" with
    | none => pure inherited.helpLevel
    | some raw =>
      match raw.asNat? with
      | some level =>
        if level ≤ maxLevel then pure level else throw (malformed path .helpLevel)
      | none => throw (malformed path .helpLevel)
  let simpleTag ← match entries.lookup "x-simpletag" with
    | none => pure inherited.simpleTag
    | some (.bool b) => pure b
    | some _ => throw (malformed path .simpleTag)
  return { helpLevel, simpleTag }

/-- The literals of the enumeration keyword. -/
def choicesOf (path : ParamPath) (entries : Entries) : Except SchemaError (Option (List Value)) :=
  match entries.lookup "enum" with
  | none => .ok none
  | some (.array (v :: vs)) => .ok (some (v :: vs))
  | some _ => .error (malformed path .emptyEnum)

/-- A keyword that holds a text or nothing. -/
def textOf (path : ParamPath) (entries : Entries) (keyword : String) :
    Except SchemaError (Option String) :=
  match entries.lookup keyword with
  | none | some .null => .ok none
  | some (.string text) => .ok (some text)
  | some _ => .error (malformed path (.textExpected keyword))

/-- One entry of a list of actions or checks: a name, or one name with arguments. -/
def entryOf (path : ParamPath) : Value → Except SchemaError (String × Arguments)
  | .string name => .ok (name, {})
  | .object [(name, arguments)] => .ok (name, .ofValue (some arguments))
  | .object entries => .error (malformed path (.entryCount entries.length))
  | _ => .error (malformed path .entryShape)

/-- The entries of an action or check keyword: one, or a sequence of them. -/
def entriesOf (path : ParamPath) : Option Value → Except SchemaError (List (String × Arguments))
  | none | some .null => .ok []
  | some (.array entries) => entries.mapM (entryOf path)
  | some entry => do return [← entryOf path entry]

/-- The fault of a name with arguments, where `unknown` is that of the name alone. -/
def registryFault (unknown : String → SchemaFault) (name : String) : RegistryFault → SchemaFault
  | .unknown => unknown name
  | .invalid fault => .invalidArguments name fault

/-- The actions of a node. -/
def actionsOf (path : ParamPath) (entries : Entries) : Except SchemaError (List Action) := do
  (← entriesOf path (entries.lookup "x-action")).mapM fun (name, args) =>
    match Action.build name args with
    | .ok action => .ok action
    | .error fault => .error ⟨path, registryFault .unknownAction name fault⟩

/-- The checks of a node. -/
def checksOf (path : ParamPath) (entries : Entries) : Except SchemaError (List Check) := do
  (← entriesOf path (entries.lookup "x-check")).mapM fun (name, args) =>
    match Check.build name args with
    | .ok check => .ok check
    | .error fault => .error ⟨path, registryFault .unknownCheck name fault⟩

/-- The further tags of a node. -/
def aliasesOf (path : ParamPath) (entries : Entries) : Except SchemaError (List String) :=
  match entries.lookup "x-alias" with
  | none => .ok []
  | some (.string tag) => .ok [tag]
  | some (.array tags) => tags.mapM fun
    | .string tag => .ok tag
    | _ => .error (malformed path .aliasEntry)
  | some _ => .error (malformed path .aliasShape)

/-! ## Shapes -/

/-- The shape that a type name stands for. `properties` and `items` are what the
keywords of those names build. -/
def kindOfName (path : ParamPath) (properties : Except SchemaError Properties)
    (items : Except SchemaError Node) (name : String) : Except SchemaError Kind :=
  if name = "object" then properties.map .object
  else if name = "array" then items.map .array
  else
    match Primitive.ofName? name with
    | some type => .ok (.scalar type)
    | none => .error ⟨path, .unknownType name⟩

/-- The alternative for one name of a list of type names. -/
def alternativeOfName (path : ParamPath) (here : Inherited)
    (properties : Except SchemaError Properties) (items : Except SchemaError Node)
    (choices : Option (List Value)) (name : String) : Except SchemaError Node := do
  let kind ← kindOfName path properties items name
  return kind.toNode { helpLevel := here.helpLevel, simpleTag := here.simpleTag } choices

/-- A list of type names. -/
def typeNames (path : ParamPath) (names : List Value) : Except SchemaError (List String) :=
  names.mapM fun
    | .string name => .ok name
    | _ => .error (malformed path .typeNameNotString)

/-- A shape with the literals that stay on the node itself. An enumeration beside
a composite is refused. -/
def withChoices (path : ParamPath) (choices : Option (List Value)) (kind : Kind) :
    Except SchemaError (Kind × Option (List Value)) :=
  if choices.isSome && !kind.isScalar then .error (malformed path .enumOnComposite)
  else .ok (kind, choices)

/-- The shape of a node without `oneOf`: by its type names, else by the keywords
it has. -/
def kindOfType (path : ParamPath) (here : Inherited) (entries : Entries)
    (properties : Except SchemaError Properties) (items : Except SchemaError Node)
    (choices : Option (List Value)) : Except SchemaError (Kind × Option (List Value)) :=
  let named := kindOfName path properties items
  match entries.lookup "type" with
  | none =>
    if (entries.lookup "properties").isSome then do withChoices path choices (← named "object")
    else if (entries.lookup "items").isSome then do withChoices path choices (← named "array")
    else .ok (.scalar .any, choices)
  | some (.string name) => do withChoices path choices (← named name)
  | some (.array names) => do
    match ← typeNames path names with
    | [] => throw (malformed path .emptyType)
    | [single] => withChoices path choices (← named single)
    | several =>
      let alternatives ← several.mapM (alternativeOfName path here properties items choices)
      return (.union alternatives, none)
  | some _ => .error (malformed path .typeNotNames)

/-- The attributes of a node. -/
def attributesOf (path : ParamPath) (here : Inherited) (entries : Entries) :
    Except SchemaError Attributes := do
  let actions ← actionsOf path entries
  let checks ← checksOf path entries
  let description ← textOf path entries "description"
  let aliases ← aliasesOf path entries
  return { default := entries.lookup "default", actions, checks, helpLevel := here.helpLevel,
           description, aliases, simpleTag := here.simpleTag }

/-- A value found under a key is smaller than its mapping. -/
theorem sizeOf_lookup_lt {key : String} {entries : Entries} {v : Value}
    (h : entries.lookup key = some v) : sizeOf v < sizeOf (Value.object entries) := by
  induction entries with
  | nil => simp at h
  | cons entry rest ih =>
    obtain ⟨k, w⟩ := entry
    rw [List.lookup_cons] at h
    split at h
    · cases h
      simp
      omega
    · have := ih h
      simp at this ⊢
      omega

/-! ## Nodes -/

mutual

/-- The node that a value describes at a path. -/
def buildNode (path : ParamPath) (inherited : Inherited) (value : Value) :
    Except SchemaError Node :=
  match value with
  | .object entries => do
    let here ← settings path inherited entries
    let choices ← choicesOf path entries
    let (kind, choices) ← match _hOne : entries.lookup "oneOf" with
      | some (.array (v :: vs)) =>
        if choices.isSome then throw (malformed path .enumOnUnion)
        else do
          let alternatives ← buildAlternatives (path.key "oneOf") here 0 (v :: vs)
          pure (Kind.union alternatives, none)
      | some _ => throw (malformed path .emptyOneOf)
      | none =>
        let properties := match _hProps : entries.lookup "properties" with
          | none => .ok []
          | some (.object declared) => buildProperties path here declared
          | some _ => .error (malformed path .propertiesNotMapping)
        let items := match _hItems : entries.lookup "items" with
          | none => .ok (Node.plainScalar .any)
          | some items => buildNode (path.key "items") here items
        kindOfType path here entries properties items choices
    let attrs ← attributesOf path here entries
    return kind.toNode attrs choices
  | _ => .error (malformed path .nodeNotMapping)
termination_by sizeOf value
decreasing_by
  · have := sizeOf_lookup_lt _hOne; simp at this ⊢; omega
  · have := sizeOf_lookup_lt _hProps; simp at this ⊢; omega
  · have := sizeOf_lookup_lt _hItems; simp at this ⊢; omega

/-- The properties that the entries of a mapping declare. -/
def buildProperties (path : ParamPath) (inherited : Inherited) (entries : Entries) :
    Except SchemaError Properties :=
  match entries with
  | [] => .ok []
  | (key, value) :: rest => do
    let node ← buildNode (path.key key) inherited value
    let nodes ← buildProperties path inherited rest
    return (key, node) :: nodes
termination_by sizeOf entries

/-- The alternatives that a sequence lists, numbered from `i`. -/
def buildAlternatives (path : ParamPath) (inherited : Inherited) (i : Nat) (values : List Value) :
    Except SchemaError (List Node) :=
  match values with
  | [] => .ok []
  | value :: rest => do
    let node ← buildNode (path.index i) inherited value
    let nodes ← buildAlternatives path inherited (i + 1) rest
    return node :: nodes
termination_by sizeOf values

end

/-- The schema that a document describes, or its first defect. -/
def ofValue (document : Value) : Except SchemaError Schema := do
  let root ← buildNode .root {} document
  if !root.isObject then throw (malformed .root .rootNotObject)
  let flags ← FlagTable.derive root
  match document with
  | .object entries =>
    let title ← textOf .root entries "title"
    let description ← textOf .root entries "description"
    return { title, description, root, flags }
  | _ => throw (malformed .root .nodeNotMapping)

/-- The description of a property of the root, which heads its flags in help. -/
def groupDescription (s : Schema) (group : String) : Option String :=
  (s.root.property? group).bind (·.attrs.description)

end Schema

end ParamTree
