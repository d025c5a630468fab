import ParamTree.Schema.Node
import ParamTree.Schema.Error

/-!
# Flags

Every node that is no object and is reached from the root through object
properties has a flag. `Flag.candidates` lists these flags in the order of the
schema; `FlagTable.ofFlags` admits them one by one and refuses a name that cannot
be typed, a tag that asks for help, and a tag that is taken.
-/

namespace ParamTree

/-- A flag of a schema. -/
structure Flag where
  /-- The name without dashes. -/
  name : String
  /-- The tags that select the flag besides `--name`. -/
  aliases : List String
  /-- The properties that lead to the node. -/
  path : List String
  typeSummary : String
  /-- Does the flag take any number of values? -/
  variadic : Bool
  /-- May the flag come without a value? -/
  optionalValue : Bool
  /-- The rendered default, if the node has one. -/
  default : Option String
  /-- The rendered literals that the node is limited to. -/
  choices : List String
  helpLevel : Nat
  description : Option String
deriving DecidableEq, Repr

namespace Flag

/-- The primary tag. -/
def longTag (f : Flag) : String := "--" ++ f.name

/-- Every tag that selects the flag, the primary one first. -/
def tags (f : Flag) : List String := f.longTag :: f.aliases

/-- The property of the root that the flag stands under, none for a property of
the root itself. -/
def group (f : Flag) : Option String :=
  match f.path with
  | first :: _ :: _ => some first
  | _ => none

/-- The dotted path of the parameter. -/
def dottedPath (f : Flag) : String := ParamPath.dotted f.path

/-- The address of the parameter. -/
def paramPath (f : Flag) : ParamPath := .ofKeys f.path

/-- The literals that a node is limited to, rendered. -/
def choicesOf : Node → List String
  | .scalar _ _ (some choices) => choices.map renderLiteral
  | _ => []

/-- The flag of a node. -/
def ofNode (n : Node) (path : List String) (name : String) : Flag where
  name := name
  aliases := n.attrs.aliases
  path := path
  typeSummary := if n.isVariadic then n.typeSummary ++ " ..." else n.typeSummary
  variadic := n.isVariadic
  optionalValue := n.acceptsBareFlag
  default := n.attrs.default.map renderLiteral
  choices := choicesOf n
  helpLevel := n.attrs.helpLevel
  description := n.attrs.description

/-- The name of a property's flag: the property alone where it has a simple tag,
else after the names of the objects since the last simple tag. -/
def nameOf (lead key : String) (n : Node) : String :=
  if n.attrs.simpleTag then key else lead ++ key

/-- The flags of the nodes below the given properties, depth first. `path` leads
to the properties; `lead` is what a name without a simple tag starts with. -/
def candidates (path : List String) (lead : String) : Properties → List Flag
  | [] => []
  | (key, child) :: rest =>
    let name := nameOf lead key child
    let path' := path ++ [key]
    (match child with
      | .object _ properties => candidates path' (name ++ "-") properties
      | _ => [ofNode child path' name]) ++ candidates path lead rest

/-! ## Names that can be typed -/

/-- May a name start with the character? -/
def isNameStart (c : Char) : Bool :=
  ('A' ≤ c && c ≤ 'Z') || ('a' ≤ c && c ≤ 'z') || ('0' ≤ c && c ≤ '9')

/-- May a name contain the character? -/
def isNameChar (c : Char) : Bool := isNameStart c || c == '_' || c == '.' || c == '-'

/-- A letter or digit, then letters, digits, underscores, points and dashes. -/
def isNameText : List Char → Bool
  | [] => false
  | c :: cs => isNameStart c && cs.all isNameChar

/-- Can the name be typed after two dashes? -/
def validName (name : String) : Bool := isNameText name.toList

/-- Can the tag be typed: a name after one dash or two? -/
def validAlias (tag : String) : Bool :=
  match tag.toList with
  | '-' :: '-' :: name => isNameText name
  | '-' :: name => isNameText name
  | _ => false

end Flag

/-- The tags that ask for help. -/
def helpTags : List String := ["-h", "--help"]

/-- The flags of a schema, in order. -/
structure FlagTable where
  flags : List Flag := []
deriving DecidableEq, Repr

namespace FlagTable

/-- The flag that a tag selects. -/
def find? (t : FlagTable) (tag : String) : Option Flag := t.flags.find? (·.tags.contains tag)

/-- Is the token a tag of a flag? -/
def isTag (t : FlagTable) (token : String) : Bool := (t.find? token).isSome

/-- A token is a tag exactly if some flag has it. -/
theorem isTag_iff {t : FlagTable} {token : String} :
    t.isTag token ↔ ∃ f ∈ t.flags, token ∈ f.tags := by
  simp [isTag, find?, List.find?_isSome]

/-- The fault of one tag of a flag, given the table so far and the flag's tags
before it. -/
def tagFault (t : FlagTable) (f : Flag) (before : List String) (tag : String) :
    Option SchemaFault :=
  if !before.isEmpty && !Flag.validAlias tag then some (.invalidFlagName tag)
  else if helpTags.contains tag then some (.reservedFlag tag)
  else
    match t.find? tag with
    | some other => some (.duplicateFlag tag other.paramPath)
    | none => if before.contains tag then some (.duplicateFlag tag f.paramPath) else none

/-- The first fault among the tags of a flag; `before` holds those found good. -/
def tagsFault (t : FlagTable) (f : Flag) (before : List String) : List String → Option SchemaFault
  | [] => none
  | tag :: rest =>
    match t.tagFault f before tag with
    | some fault => some fault
    | none => t.tagsFault f (before ++ [tag]) rest

/-- The first fault of a flag. -/
def fault? (t : FlagTable) (f : Flag) : Option SchemaFault :=
  if !Flag.validName f.name then some (.invalidFlagName f.name) else t.tagsFault f [] f.tags

/-- The table with one more flag. -/
def insert (t : FlagTable) (f : Flag) : Except SchemaError FlagTable :=
  match t.fault? f with
  | some fault => .error ⟨f.paramPath, fault⟩
  | none => .ok ⟨t.flags ++ [f]⟩

/-- The table with more flags, or the first error among them. -/
def insertAll (t : FlagTable) : List Flag → Except SchemaError FlagTable
  | [] => .ok t
  | f :: rest =>
    match t.insert f with
    | .ok t => t.insertAll rest
    | .error e => .error e

/-- The table of the given flags. -/
def ofFlags (flags : List Flag) : Except SchemaError FlagTable := insertAll {} flags

/-- The table of the flags of a schema tree. -/
def derive (root : Node) : Except SchemaError FlagTable :=
  ofFlags (Flag.candidates [] "" root.properties)

/-- The flags shown at a help level. -/
def visible (t : FlagTable) (level : Nat) : List Flag := t.flags.filter (·.helpLevel ≤ level)

/-- The highest help level of any flag. -/
def maxHelpLevel (t : FlagTable) : Nat := t.flags.foldl (fun n f => max n f.helpLevel) 0

end FlagTable

end ParamTree
