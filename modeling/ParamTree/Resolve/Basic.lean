import ParamTree.Schema.Basic
import ParamTree.Resolve.FlagInput

/-!
# Resolution

Resolution walks a schema once. An object reached through properties is filled
property by property. Every other node reached so takes one raw value from the
first source that has one: the command line, the config, the default. The raw
value is shaped to the node (`shape`), then the node's actions and checks follow
(`finish`). Objects merge leaf by leaf; they are never replaced as a whole.

`fits` decides which alternative of a union a value is shaped to.
-/

namespace ParamTree

/-- A resolution: it reads and extends the file system and may fail. -/
abbrev Resolution := FileM ResolveError

/-- A raw value and whether its flag came without one. -/
structure Raw where
  value : Value
  bare : Bool := false
deriving DecidableEq, Repr

namespace Resolve

/-- A result that needs no file system, as a resolution. -/
def liftExcept {α : Type} : Except ResolveError α → Resolution α
  | .ok v => pure v
  | .error e => throw e

/-! ## Fitting -/

/-- Does an array node take the value? Collections decide by themselves; any other
value has to be wrapped into a list by the union or by the node. -/
def fitsArray (wraps : Bool) (attrs : Attributes) : Value → Bool
  | .array _ => true
  | .object _ => false
  | _ => wraps || attrs.makesList

/-- Does an object node take the value: a mapping with declared keys only? -/
def fitsObject (properties : Properties) : Value → Bool
  | .object entries => entries.all fun entry => (properties.lookup entry.1).isSome
  | _ => false

/-- Does a scalar node take the value? -/
def fitsScalar (type : Primitive) (choices : Option (List Value)) (v : Value) : Bool :=
  match type.coerce v with
  | none => false
  | some w =>
    match choices with
    | none => true
    | some allowed => (enumMember w allowed).isSome

mutual

/-- Does a value fit an alternative of a union? `wraps` says that the union makes
lists. Null fits where it is the default. -/
def fits (wraps : Bool) (v : Value) : Node → Bool
  | .object a properties => if v.isNull then a.admitsNull else fitsObject properties v
  | .array a _ => if v.isNull then a.admitsNull else fitsArray wraps a v
  | .union a alternatives => if v.isNull then a.admitsNull else fitsAny wraps v alternatives
  | .scalar a type choices => if v.isNull then a.admitsNull else fitsScalar type choices v

/-- Does a value fit one of the alternatives? -/
def fitsAny (wraps : Bool) (v : Value) : List Node → Bool
  | [] => false
  | n :: rest => fits wraps v n || fitsAny wraps v rest

end

/-! ## Actions and checks -/

/-- Applies actions in order. Presence actions wait for a flag without a value. -/
def applyActions (bare : Bool) (path : ParamPath) : List Action → Value → Resolution Value
  | [], v => pure v
  | action :: rest, v =>
    if action.isPresence && !bare then applyActions bare path rest v
    else do
      let w ← EStateM.adaptExcept (.actionFailed path action) (action.apply v)
      applyActions bare path rest w

/-- Runs checks in order. -/
def runChecks (path : ParamPath) (v : Value) : List Check → Resolution Unit
  | [] => pure ()
  | check :: rest => do
    EStateM.adaptExcept (.checkFailed path check) (check.run v)
    runChecks path v rest

/-- The value of a node after its actions and checks. Null passes untouched. -/
def finish (attrs : Attributes) (bare : Bool) (path : ParamPath) (v : Value) : Resolution Value :=
  if v.isNull then pure v
  else do
    let w ← applyActions bare path attrs.actions v
    runChecks path w attrs.checks
    return w

/-! ## Sources -/

/-- The raw value that the command line gives to a node. -/
def rawOfGiven (n : Node) : Given → Raw
  | .bare =>
    let value := match n.attrs.presence? with
      | some v => v
      | none => if n.isVariadic then .array [] else .bool true
    { value, bare := true }
  | .single token => { value := .string token }
  | .many tokens => { value := .array (tokens.map .string) }

/-- The raw value of a node: from the command line where flags reach it, else from
the config, else its default. -/
def pick (flags : Option FlagInput) (n : Node) (config : Option Value) (path : ParamPath) :
    Except ResolveError Raw :=
  match flags.bind (·.get? path.keys) with
  | some given => .ok (rawOfGiven n given)
  | none =>
    match config with
    | some v => .ok { value := v }
    | none =>
      match n.attrs.default with
      | some v => .ok { value := v }
      | none => .error (.missingRequired path)

/-- What fills an object: the config where it has something, else its default. -/
def subtree (attrs : Attributes) (config : Option Value) : Option Value :=
  match config with
  | some .null | none => attrs.default
  | some v => some v

/-- The entries that fill an object, if they are a mapping with declared keys. -/
def supplied (properties : Properties) (path : ParamPath) :
    Option Value → Except ResolveError Entries
  | none => .ok []
  | some (.object entries) =>
    match entries.find? fun entry => (properties.lookup entry.1).isNone with
    | some (key, _) => .error (.unknownKey (path.key key))
    | none => .ok entries
  | some other => .error (.typeMismatch path "mapping" other)

/-! ## Shaping -/

/-- Shapes a value to a scalar node. -/
def shapeScalar (type : Primitive) (choices : Option (List Value)) (path : ParamPath)
    (v : Value) : Except ResolveError Value :=
  match type.coerce v with
  | none => .error (.typeMismatch path type.name v)
  | some w =>
    match choices with
    | none => .ok w
    | some allowed =>
      match enumMember w allowed with
      | some literal => .ok literal
      | none => .error (.invalidEnum path w allowed)

/-- The elements that an array node takes from a value. -/
def elementsOf (attrs : Attributes) (summary : String) (path : ParamPath) :
    Value → Except ResolveError (List Value)
  | .array items => .ok items
  | .null => .error (.typeMismatch path summary .null)
  | other =>
    if attrs.makesList then .ok [other] else .error (.typeMismatch path summary other)

/-- The value as a selected alternative gets it: an array gets a sequence. -/
def wrapFor (alternative : Node) (v : Value) : Value :=
  match alternative, v with
  | .array .., .array items => .array items
  | .array .., other => .array [other]
  | _, other => other

/-- Runs `f` on the elements of a sequence in order, each with its path. -/
def eachElement (f : ParamPath → Value → Resolution Value) (path : ParamPath) :
    Nat → List Value → Resolution (List Value)
  | _, [] => pure []
  | i, v :: vs => do
    let w ← f (path.index i) v
    let ws ← eachElement f path (i + 1) vs
    return w :: ws

mutual

/-- Shapes a value to a node, without the node's own actions and checks. -/
def shape (path : ParamPath) (v : Value) : Node → Resolution Value
  | .object a properties =>
    if v.isNull && a.admitsNull then pure .null
    else do
      let entries ← liftExcept (supplied properties path (some v))
      return .object (← fill none path entries properties)
  | .array a items =>
    if v.isNull && a.admitsNull then pure .null
    else do
      let elements ← liftExcept (elementsOf a ("[" ++ items.typeSummary ++ "]") path v)
      return .array (← eachElement (fun p e => do
        let shaped ← shape p e items
        finish items.attrs false p shaped) path 0 elements)
  | .union a alternatives =>
    if v.isNull && a.admitsNull then pure .null
    else shapeFirst a.makesList path v (alternatives.map Node.typeSummary) alternatives
  | .scalar a type choices =>
    if v.isNull && a.admitsNull then pure .null
    else liftExcept (shapeScalar type choices path v)

/-- Shapes a value to the first alternative that it fits. `tried` lists them all,
for the message where none does. -/
def shapeFirst (wraps : Bool) (path : ParamPath) (v : Value) (tried : List String) :
    List Node → Resolution Value
  | [] => throw (.noAlternative path v tried)
  | n :: rest =>
    if fits wraps v n then do
      let shaped ← shape path (wrapFor n v) n
      finish n.attrs false path shaped
    else shapeFirst wraps path v tried rest

/-- Resolves declared properties in order against the entries given for them.
`flags` is there while the properties are reached from the root through objects
alone. -/
def fill (flags : Option FlagInput) (path : ParamPath) (entries : Entries) :
    Properties → Resolution Entries
  | [] => pure []
  | (key, child) :: rest => do
    let here := path.key key
    let value ← match child with
      | .object a properties => do
        let given ← liftExcept (supplied properties here (subtree a (entries.lookup key)))
        let fields ← fill flags here given properties
        finish a false here (.object fields)
      | leaf => do
        let raw ← liftExcept (pick flags leaf (entries.lookup key) here)
        let shaped ← shape here raw.value leaf
        finish leaf.attrs raw.bare here shaped
    let values ← fill flags path entries rest
    return (key, value) :: values

end

end Resolve

namespace Schema

/-- Resolves the parameters of a schema with input that has been read. -/
def resolveInput (s : Schema) (config : Option Value) (input : FlagInput) : Resolution Value := do
  let properties := s.root.properties
  let entries ← Resolve.liftExcept (Resolve.supplied properties .root config)
  let fields ← Resolve.fill (some input) .root entries properties
  Resolve.finish s.root.attrs false .root (.object fields)

/-- Resolves the parameters of a schema against a config and tokens, each of which
may be absent. -/
def resolve (s : Schema) (config : Option Value) (tokens : Option (List String)) :
    Resolution Value := do
  let input ← match tokens with
    | none => pure {}
    | some tokens => Resolve.liftExcept (FlagInput.read s.flags tokens)
  s.resolveInput config input

end Schema

end ParamTree
