import ParamTree.Yaml.Node
import ParamTree.Yaml.Plain
import ParamTree.Value.Basic

/-!
# The content of a document

`Tree` is what a document says once aliases are followed and scalars are read.
`Tree.ofNode?` composes it, `Tree.merge?` applies the merge keys `<<`, and
`Tree.toValue` turns it into a value, if it is one: `Yaml.read` does all three.
-/

namespace ParamTree.Yaml

/-- The content of a document. Keys may be of any kind. -/
inductive Tree where
  | null
  | bool (b : Bool)
  | integer (n : Integer64)
  | float (x : YamlFloat)
  | text (s : String)
  | sequence (items : List Tree)
  | mapping (entries : List (Tree × Tree))
  /-- Content with a tag of the document's own. -/
  | tagged (tag : String) (content : Tree)
deriving Inhabited, Repr

/-- Equality of floats as keys: the zeros are equal, and so is not-a-number to
itself. -/
def YamlFloat.sameAs : YamlFloat → YamlFloat → Bool
  | .finite x, .finite y => x.sameAs y
  | x, y => x == y

namespace Tree

mutual

/-- Are two trees the same as keys? The order of a mapping does not count. -/
def sameAs : Tree → Tree → Bool
  | .null, .null => true
  | .bool a, .bool b => a == b
  | .integer a, .integer b => a == b
  | .float x, .float y => x.sameAs y
  | .text s, .text t => s == t
  | .sequence as, .sequence bs => sameItems as bs
  | .mapping es, .mapping fs => es.length == fs.length && sameEntries es fs
  | .tagged s a, .tagged t b => s == t && a.sameAs b
  | _, _ => false

/-- Are two sequences the same one by one? -/
def sameItems : List Tree → List Tree → Bool
  | [], [] => true
  | a :: as, b :: bs => a.sameAs b && sameItems as bs
  | _, _ => false

/-- Is every entry found among `others`? -/
def sameEntries : List (Tree × Tree) → List (Tree × Tree) → Bool
  | [], _ => true
  | (k, v) :: rest, others =>
    (others.any fun (l, w) => k.sameAs l && v.sameAs w) && sameEntries rest others

end

/-- Is the key among the entries? -/
def hasKey (key : Tree) (entries : List (Tree × α)) : Bool :=
  entries.any fun (k, _) => key.sameAs k

/-- Does no key stand twice? -/
def distinctKeys : List (Tree × α) → Bool
  | [] => true
  | (k, _) :: rest => !hasKey k rest && distinctKeys rest

/-! ## Composing -/

/-- The tree of a plain scalar, none for an integer that is too wide. -/
def ofPlain? (text : String) : Option Tree :=
  match Plain.read text with
  | .null => some .null
  | .bool b => some (.bool b)
  | .integer n => some (.integer n)
  | .wideInteger => none
  | .float x => some (.float x)
  | .text => some (.text text)

/-- Does a tag start with the mark of the document's own tags? -/
def isMarked (tag : TagText) : Bool := tag.head? == some (some '!')

/-- The name of a tag of the document's own: what follows its mark, or the mark where
nothing does. A second mark before a name does not count. -/
def ownTag? (tag : TagText) : Option String :=
  match tag with
  | some '!' :: some '!' :: c :: rest => TagText.toString? (c :: rest)
  | some '!' :: c :: rest => TagText.toString? (c :: rest)
  | [some '!'] => some "!"
  | _ => none

/-- The tree of a scalar with a tag of the standard: the four that name a kind of
scalar insist on it, all others make a text. -/
def ofStandardTag? (tag : TagText) (text : String) : Option Tree :=
  if tag = .ofString "tag:yaml.org,2002:bool" then (Plain.bool? text).map .bool
  else if tag = .ofString "tag:yaml.org,2002:int" then
    ((Plain.int? text.toList).bind Integer64.ofInt?).map .integer
  else if tag = .ofString "tag:yaml.org,2002:float" then (Plain.float? text).map .float
  else if tag = .ofString "tag:yaml.org,2002:null" then
    if Plain.nullWords.contains text then some .null else none
  else some (.text text)

/-- The tree of a scalar. A tag of the document's own that cannot be read does not
count. -/
def ofScalar? (tag : Option TagText) (text : String) (plain : Bool) : Option Tree :=
  let untagged := if plain then ofPlain? text else some (.text text)
  match tag with
  | none => untagged
  | some tag =>
    match ownTag? tag with
    | some own => untagged.map (.tagged own)
    | none => if isMarked tag then untagged else ofStandardTag? tag text

/-- The tree of a collection with its tag, if that is the document's own. -/
def ofCollection (tag : Option TagText) (content : Tree) : Tree :=
  match tag.bind ownTag? with
  | some own => .tagged own content
  | none => content

/-- The deepest nesting of collections. -/
def maxDepth : Nat := 128

/-- How many aliases may be followed for each mark of the document. -/
def aliasesPerMark : Nat := 100

/-- The node that an alias stands for, or the node itself. The state is the number
of aliases that may still be followed. Of two nodes with one number the later
counts. -/
def follow (anchored : List (Nat × Node)) : Node → StateT Nat Option Node
  | .alias n => do
    match ← get with
    | 0 => failure
    | left + 1 =>
      set left
      return (← anchored.reverse.lookup n)
  | node => return node

/-- The tree of a node whose collections are nested at most `depth` deep. -/
def compose (anchored : List (Nat × Node)) : Nat → Node → StateT Nat Option Tree
  | depth, node => do
    match ← follow anchored node with
    | .scalar _ tag s plain => ofScalar? tag s plain
    | .sequence _ tag items =>
      match depth with
      | 0 => failure
      | depth + 1 =>
        return ofCollection tag (.sequence (← items.mapM (compose anchored depth)))
    | .mapping _ tag entries =>
      match depth with
      | 0 => failure
      | depth + 1 =>
        let entries ← entries.mapM fun (key, value) =>
          return (← compose anchored depth key, ← compose anchored depth value)
        if distinctKeys entries then return ofCollection tag (.mapping entries) else failure
    | .alias _ => failure

/-- The tree of the root of a document. -/
def ofNode? (root : Node) : Option Tree :=
  (compose root.anchored maxDepth root).run' (aliasesPerMark * root.marks)

/-! ## Merge keys -/

/-- Is this the merge key? -/
def isMergeKey : Tree → Bool
  | .text s => s == "<<"
  | _ => false

/-- The entries without the merge key. The last entry takes its place. -/
def dropMergeKey (entries : List (Tree × α)) : List (Tree × α) :=
  let before := entries.takeWhile fun (k, _) => !isMergeKey k
  match entries.dropWhile fun (k, _) => !isMergeKey k with
  | [] => before
  | _ :: after =>
    match after.getLast? with
    | some last => before ++ last :: after.dropLast
    | none => before

/-- The entries followed by those of `more` whose keys are new. -/
def addMissing (entries more : List (Tree × α)) : List (Tree × α) :=
  more.foldl (fun known e => if hasKey e.1 known then known else known ++ [e]) entries

/-- A mapping whose values have all been merged. -/
def mappingOf? (entries : List (Tree × Option Tree)) : Option Tree := do
  let entries ← entries.mapM fun (k, v) => return (k, ← v)
  return .mapping entries

mutual

/-- The tree with every merge key replaced by the entries of the mappings that it
names: none of them replaces an entry, and merge keys among them are not applied
again. Keys are left alone. -/
def merge? : Tree → Option Tree
  | .sequence items => (mergeItems? items).map .sequence
  | .mapping entries =>
    match mergedEntries? entries with
    | none => none
    | some more => mappingOf? (addMissing (dropMergeKey (ownEntries entries)) more)
  | .tagged tag content => (merge? content).map (.tagged tag)
  | t => some t

/-- The items, each merged. -/
def mergeItems? : List Tree → Option (List Tree)
  | [] => some []
  | item :: rest =>
    match merge? item, mergeItems? rest with
    | some item, some rest => some (item :: rest)
    | _, _ => none

/-- The entries with their merged values. The value of the merge key is not used. -/
def ownEntries : List (Tree × Tree) → List (Tree × Option Tree)
  | [] => []
  | (k, v) :: rest => (k, if isMergeKey k then none else merge? v) :: ownEntries rest

/-- The entries with their merged values. -/
def allEntries : List (Tree × Tree) → List (Tree × Option Tree)
  | [] => []
  | (k, v) :: rest => (k, merge? v) :: allEntries rest

/-- The entries that the merge key names, with their merged values. -/
def mergedEntries? : List (Tree × Tree) → Option (List (Tree × Option Tree))
  | [] => some []
  | (k, v) :: rest => if isMergeKey k then namedEntries? v else mergedEntries? rest

/-- The entries of the mapping or the mappings that the value of a merge key is. -/
def namedEntries? : Tree → Option (List (Tree × Option Tree))
  | .mapping entries => some (allEntries entries)
  | .sequence items => namedByItems? items
  | _ => none

/-- The entries of mappings, one after the other. -/
def namedByItems? : List Tree → Option (List (Tree × Option Tree))
  | [] => some []
  | .mapping entries :: rest => (namedByItems? rest).map fun more => allEntries entries ++ more
  | _ :: _ => none

end

/-! ## Values -/

/-- Why a tree is no value. -/
inductive Misfit where
  /-- An infinity or not-a-number. -/
  | number (x : YamlFloat)
  | compositeKey
deriving DecidableEq, Repr

end Tree

/-- The text of a float. -/
def YamlFloat.text : YamlFloat → String
  | .finite x => x.text .yaml
  | .infinite negative => if negative then "-.inf" else ".inf"
  | .notANumber => ".nan"

namespace Tree

/-- The wording of a misfit. -/
def Misfit.message : Misfit → String
  | .number x => s!"number {x.text} has no JSON form"
  | .compositeKey => "mapping keys must be scalars"

/-- The text of a key. -/
def keyText : Tree → Except Misfit String
  | .text s => .ok s
  | .bool b => .ok (if b then "true" else "false")
  | .integer n => .ok (toString n.val)
  | .float x => .ok x.text
  | .null => .ok "null"
  | .tagged _ content => keyText content
  | .sequence _ | .mapping _ => .error .compositeKey

mutual

/-- The value of a tree. Tags do not count. Of keys with one text the first gives
the place and the last the value. -/
def toValue : Tree → Except Misfit Value
  | .null => .ok .null
  | .bool b => .ok (.bool b)
  | .integer n => .ok (.number (.integer n))
  | .float (.finite x) => .ok (.number (.float x))
  | .float x => .error (.number x)
  | .text s => .ok (.string s)
  | .sequence items => do return .array (← itemValues items)
  | .mapping entries => do return .object (← entryValues [] entries)
  | .tagged _ content => toValue content

/-- The values of items. -/
def itemValues : List Tree → Except Misfit (List Value)
  | [] => .ok []
  | item :: rest => do
    let value ← toValue item
    return value :: (← itemValues rest)

/-- The entries of a value after those in `known`. -/
def entryValues (known : Entries) : List (Tree × Tree) → Except Misfit Entries
  | [] => .ok known
  | (k, v) :: rest => do
    let key ← keyText k
    let value ← toValue v
    entryValues (known.put key value) rest

end

end Tree

/-- The content of a YAML text with its merge keys applied, none where the text is
not YAML. -/
def content? (text : String) : Option Tree := do
  let tokens ← Lexer.tokens? text
  let root ← Node.document? tokens
  let tree ← Tree.ofNode? root
  tree.merge?

end ParamTree.Yaml
