import ParamTree.Yaml.Lexer

/-!
# The nodes of a stream

`Node.document?` reads the tokens of a stream as the nodes of its one document.
A node keeps its tag and its anchor. An anchor is known by a number, and an alias
refers to such a number: `Node.anchored` is the table of what the numbers stand
for.

The functions that read collections take the fuel that bounds their recursion;
`document?` gives them more than the tokens can use up.
-/

namespace ParamTree.Yaml

/-- A node of a document. -/
inductive Node where
  /-- A text, and whether it stands without quotes and outside a block. -/
  | scalar (anchor : Option Nat) (tag : Option TagText) (text : String) (plain : Bool)
  | sequence (anchor : Option Nat) (tag : Option TagText) (items : List Node)
  | mapping (anchor : Option Nat) (tag : Option TagText) (entries : List (Node × Node))
  | alias (anchor : Nat)
deriving Inhabited, Repr

namespace Node

/-- The node that is meant where none is written. -/
def empty : Node := .scalar none none "" true

/-! ## Measures -/

mutual

/-- The number of marks that a reader meets: one for a scalar or an alias, a start
and an end for a collection. -/
def marks : Node → Nat
  | .scalar .. => 1
  | .alias _ => 1
  | .sequence _ _ items => 2 + marksOfItems items
  | .mapping _ _ entries => 2 + marksOfEntries entries

/-- The marks of some nodes. -/
def marksOfItems : List Node → Nat
  | [] => 0
  | item :: rest => item.marks + marksOfItems rest

/-- The marks of some entries. -/
def marksOfEntries : List (Node × Node) → Nat
  | [] => 0
  | (key, value) :: rest => key.marks + value.marks + marksOfEntries rest

end

/-- An anchor and the node that has it. -/
def anchorOf (anchor : Option Nat) (node : Node) : List (Nat × Node) :=
  match anchor with
  | some n => [(n, node)]
  | none => []

mutual

/-- The nodes with anchors, in the order in which they start. -/
def anchored : Node → List (Nat × Node)
  | .scalar anchor tag text plain => anchorOf anchor (.scalar anchor tag text plain)
  | .alias _ => []
  | .sequence anchor tag items =>
    anchorOf anchor (.sequence anchor tag items) ++ anchoredItems items
  | .mapping anchor tag entries =>
    anchorOf anchor (.mapping anchor tag entries) ++ anchoredEntries entries

/-- The nodes with anchors in some nodes. -/
def anchoredItems : List Node → List (Nat × Node)
  | [] => []
  | item :: rest => item.anchored ++ anchoredItems rest

/-- The nodes with anchors in some entries. -/
def anchoredEntries : List (Node × Node) → List (Nat × Node)
  | [] => []
  | (key, value) :: rest => key.anchored ++ value.anchored ++ anchoredEntries rest

end

end Node

/-! ## Reading tokens -/

/-- The tokens that are still to be read, and the numbers of the anchors so far. -/
structure TokenSource where
  tokens : List Token
  anchors : List (String × Nat) := []

/-- A step of reading, which may find that the tokens form no document. -/
abbrev NodeReader := StateT TokenSource Option

namespace NodeReader

/-- The next token. -/
def peek : NodeReader (Option Token) := return (← get).tokens.head?

/-- Passes the next token. -/
def skip : NodeReader Unit := modify fun s => { s with tokens := s.tokens.tail }

/-- Passes the next token, which must be the given one. -/
def expect (t : Token) : NodeReader Unit := do
  if (← peek) = some t then skip else failure

/-- Is one of the tokens next? -/
def atOneOf (ends : List Token) : NodeReader Bool := return (← peek).any ends.contains

/-- What a reader reads, or the empty node if one of the tokens is next. -/
def orEmpty (ends : List Token) (read : NodeReader Node) : NodeReader Node := do
  if ← atOneOf ends then return .empty else read

/-- The value after a key: the empty node where no colon follows. -/
def valueOrEmpty (ends : List Token) (read : NodeReader Node) : NodeReader Node := do
  if (← peek) = some .value then
    skip
    orEmpty ends read
  else return .empty

/-- The number of a new anchor: of the names so far. A name that is used again
stands for its new node from there on. -/
def number (name : String) : NodeReader Nat := do
  let s ← get
  let others := s.anchors.filter fun (other, _) => other != name
  set { s with anchors := (name, s.anchors.length) :: others }
  return s.anchors.length

/-- A tag in full: the handle is replaced by what it stands for. -/
def fullTag? (handles : List (String × TagText)) (handle : String) (suffix : TagText) :
    Option TagText :=
  if handle.isEmpty then some suffix else (handles.lookup handle).map fun text => text ++ suffix

/-- The anchor that comes next, if one does. -/
def anchor : NodeReader (Option String) := do
  match ← peek with
  | some (.anchor name) => skip; return some name
  | _ => return none

/-- The tag that comes next, if one does. -/
def tag (handles : List (String × TagText)) : NodeReader (Option TagText) := do
  match ← peek with
  | some (.tag handle suffix) => skip; return some (← fullTag? handles handle suffix)
  | _ => return none

/-- The number of the anchor and the tag before a node, in either order. -/
def properties (handles : List (String × TagText)) :
    NodeReader (Option Nat × Option TagText) := do
  let first ← anchor
  let tag ← tag handles
  let name ← if first.isSome then pure first else anchor
  return (← name.mapM number, tag)

mutual

/-- The next node. Only in a block may a block start, and only an entry of a block
mapping may be a sequence that is not indented. -/
def node (handles : List (String × TagText)) (block unindented : Bool) : Nat → NodeReader Node
  | 0 => failure
  | fuel + 1 => do
    match ← peek with
    | some (.alias name) =>
      skip
      return .alias (← (← get).anchors.lookup name)
    | _ =>
      let (anchor, tag) ← properties handles
      let missing : NodeReader Node :=
        if anchor.isSome || tag.isSome then return .scalar anchor tag "" true else failure
      match ← peek with
      | some (.scalar text plain) =>
        skip
        return .scalar anchor (if tag = some (.ofString "!") then none else tag) text plain
      | some .flowSequenceStart =>
        skip
        return .sequence anchor tag (← flowItems handles true fuel)
      | some .flowMappingStart =>
        skip
        return .mapping anchor tag (← flowEntries handles true fuel)
      | some .blockSequenceStart =>
        if block then
          skip
          return .sequence anchor tag (← blockItems handles fuel)
        else missing
      | some .blockMappingStart =>
        if block then
          skip
          return .mapping anchor tag (← blockEntries handles fuel)
        else missing
      | some .blockEntry =>
        if unindented then return .sequence anchor tag (← unindentedItems handles fuel)
        else missing
      | _ => missing

/-- The items of a block sequence and its end. -/
def blockItems (handles : List (String × TagText)) : Nat → NodeReader (List Node)
  | 0 => failure
  | fuel + 1 => do
    if (← peek) = some .blockEntry then
      skip
      let item ← orEmpty [.blockEntry, .blockEnd] (node handles true false fuel)
      return item :: (← blockItems handles fuel)
    else
      expect .blockEnd
      return []

/-- The items of a block sequence in the column of its key. No token ends it. -/
def unindentedItems (handles : List (String × TagText)) : Nat → NodeReader (List Node)
  | 0 => failure
  | fuel + 1 => do
    if (← peek) = some .blockEntry then
      skip
      let item ← orEmpty [.blockEntry, .key, .value, .blockEnd] (node handles true false fuel)
      return item :: (← unindentedItems handles fuel)
    else return []

/-- The entries of a block mapping and its end. -/
def blockEntries (handles : List (String × TagText)) : Nat → NodeReader (List (Node × Node))
  | 0 => failure
  | fuel + 1 => do
    if (← peek) = some .key then
      skip
      let ends : List Token := [.key, .value, .blockEnd]
      let key ← orEmpty ends (node handles true true fuel)
      let value ← valueOrEmpty ends (node handles true true fuel)
      return (key, value) :: (← blockEntries handles fuel)
    else
      expect .blockEnd
      return []

/-- The items of a flow sequence and its end. A key makes an item that is a mapping
of one entry; where no node follows the key, the token after it is passed. -/
def flowItems (handles : List (String × TagText)) (first : Bool) : Nat → NodeReader (List Node)
  | 0 => failure
  | fuel + 1 => do
    let closed ← atOneOf [.flowSequenceEnd]
    unless closed || first do expect .flowEntry
    match ← peek with
    | some .flowSequenceEnd =>
      skip
      return []
    | some .key =>
      skip
      let bare ← atOneOf [.value, .flowEntry, .flowSequenceEnd]
      let key ← orEmpty [.value, .flowEntry, .flowSequenceEnd] (node handles false false fuel)
      if bare then skip
      let value ← valueOrEmpty [.flowEntry, .flowSequenceEnd] (node handles false false fuel)
      return .mapping none none [(key, value)] :: (← flowItems handles false fuel)
    | _ =>
      let item ← node handles false false fuel
      return item :: (← flowItems handles false fuel)

/-- The entries of a flow mapping and its end. A node without a colon is a key
without a value. -/
def flowEntries (handles : List (String × TagText)) (first : Bool) :
    Nat → NodeReader (List (Node × Node))
  | 0 => failure
  | fuel + 1 => do
    let closed ← atOneOf [.flowMappingEnd]
    unless closed || first do expect .flowEntry
    match ← peek with
    | some .flowMappingEnd =>
      skip
      return []
    | some .key =>
      skip
      let key ← orEmpty [.value, .flowEntry, .flowMappingEnd] (node handles false false fuel)
      let value ← valueOrEmpty [.flowEntry, .flowMappingEnd] (node handles false false fuel)
      return (key, value) :: (← flowEntries handles false fuel)
    | _ =>
      let key ← node handles false false fuel
      return (key, .empty) :: (← flowEntries handles false fuel)

end

/-! ## Documents -/

/-- The handles that need no directive. -/
def standardHandles : List (String × TagText) :=
  [("!", .ofString "!"), ("!!", .ofString "tag:yaml.org,2002:")]

/-- The handles that the directives of a document define, and the tokens after them.
One version may be given, and each handle once. -/
def directives? (versioned : Bool) (handles : List (String × TagText)) :
    List Token → Option (List (String × TagText) × List Token)
  | .versionDirective major minor :: rest =>
    if versioned || major != 1 || !(minor == 1 || minor == 2) then none
    else directives? true handles rest
  | .tagDirective handle expansion :: rest =>
    if handles.any fun (other, _) => other == handle then none
    else directives? versioned (handles ++ [(handle, expansion)]) rest
  | rest => some (handles, rest)

/-- Does the token belong to the frame of a document? -/
def isFrame : Token → Bool
  | .versionDirective .. | .tagDirective .. | .documentStart | .documentEnd => true
  | _ => false

/-- The root of the document in some tokens, of which only marks of its end may be
left. -/
def root? (handles : List (String × TagText)) (tokens : List Token) : Option Node := do
  let (root, s) ← node handles true false (4 * tokens.length + 4) |>.run { tokens }
  if s.tokens.all fun t => t = .documentEnd then some root else none

end NodeReader

/-- The root of the one document of a stream; the empty node where the stream or the
document is empty. -/
def Node.document? (tokens : List Token) : Option Node :=
  match tokens with
  | [] => some .empty
  | first :: _ =>
    if first = .documentEnd || !NodeReader.isFrame first then
      NodeReader.root? NodeReader.standardHandles tokens
    else do
      let (handles, rest) ← NodeReader.directives? false [] tokens
      match rest with
      | .documentStart :: content =>
        if content.all fun t => t = .documentEnd then some .empty
        else NodeReader.root? (handles ++ NodeReader.standardHandles) content
      | _ => none

end ParamTree.Yaml
