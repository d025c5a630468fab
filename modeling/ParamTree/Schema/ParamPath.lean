/-!
# Parameter paths

The address of a node inside a schema or a parameter tree: the keys and sequence
indices that lead to it, written `data.train[0]`, or `<root>` for the whole tree.
-/

namespace ParamTree

/-- One step of a path. -/
inductive Segment where
  | key (name : String)
  | index (i : Nat)
deriving DecidableEq, Repr

/-- The steps from the root to a node. -/
structure ParamPath where
  segments : List Segment := []
deriving DecidableEq, Repr

namespace ParamPath

/-- The path of the whole tree. -/
def root : ParamPath := ⟨[]⟩

/-- The path of a property. -/
def key (p : ParamPath) (name : String) : ParamPath := ⟨p.segments ++ [.key name]⟩

/-- The path of a sequence element. -/
def index (p : ParamPath) (i : Nat) : ParamPath := ⟨p.segments ++ [.index i]⟩

/-- The path without its last step. -/
def up (p : ParamPath) : ParamPath := ⟨p.segments.dropLast⟩

/-- Does the path address the whole tree? -/
def isRoot (p : ParamPath) : Bool := p.segments.isEmpty

/-- The property names along the path, without the indices. -/
def keys (p : ParamPath) : List String :=
  p.segments.filterMap fun
    | .key name => some name
    | .index _ => none

/-- The path that leads through the given properties. -/
def ofKeys (names : List String) : ParamPath := ⟨names.map .key⟩

/-- The text of a step that is not the first. -/
def segmentText : Segment → String
  | .key name => "." ++ name
  | .index i => "[" ++ toString i ++ "]"

/-- The text of a path. Only keys after the first step have a point before them. -/
def text (p : ParamPath) : String :=
  match p.segments with
  | [] => "<root>"
  | .key name :: rest => name ++ String.join (rest.map segmentText)
  | segments => String.join (segments.map segmentText)

/-- The names of a property path, joined by points. -/
def dotted (names : List String) : String := ".".intercalate names

end ParamPath

end ParamTree
