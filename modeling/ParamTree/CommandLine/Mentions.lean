import ParamTree.CommandLine.Program

/-!
# Paths that a run may ask for

A run asks the file system only for paths that its arguments mention, for the
entries of directories among them, and for paths that come from the documents
there. `argumentTexts` and `Value.leafTexts` list the texts that may be such paths,
`FileSystem.stops` the locations on the way along one.
-/

namespace ParamTree

mutual

/-- The texts of the scalars in a value. -/
def Value.leafTexts : Value → List String
  | .array items => leafTextsOfItems items
  | .object entries => leafTextsOfEntries entries
  | scalar => [renderLiteral scalar]

/-- The texts of the scalars in items. -/
def Value.leafTextsOfItems : List Value → List String
  | [] => []
  | v :: vs => v.leafTexts ++ leafTextsOfItems vs

/-- The texts of the scalars in entries. -/
def Value.leafTextsOfEntries : List (String × Value) → List String
  | [] => []
  | (_, v) :: rest => v.leafTexts ++ leafTextsOfEntries rest

end

/-- The texts that an argument mentions: itself and what follows an equals sign. -/
def CommandLine.argumentTexts (arg : String) : List String :=
  match Shape.of arg with
  | .long _ (some value) => [arg, value]
  | _ => [arg]

namespace FileSystem

/-- The locations on the way along a path, and on the way to each of them. -/
def stops (fs : FileSystem) (path : RawText) : List Location :=
  let names := Files.names path
  let start := if Files.isAbsolute path then [] else fs.here
  let along := (List.range (names.length + 1)).map fun n =>
    (names.take n).foldl
      (fun loc (name : RawText) =>
        if name = "." then loc else if name = ".." then loc.dropLast else loc ++ [name]) start
  (along.flatMap onTheWay).eraseDups

/-- The texts of the scalars in the documents of a file system. -/
def documentTexts (fs : FileSystem) : List String :=
  fs.entries.flatMap fun (loc, entry) =>
    match entry, (loc.getLast?.bind DocumentFormat.ofPath?) with
    | .file (.text s), some format =>
      match Document.parse format s with
      | .ok v => v.leafTexts
      | .error _ => []
    | _, _ => []

/-- The directories that a later file system has and an earlier one has not, each
after those above it. -/
def newDirectories (before after : FileSystem) : List (Location × Nat) :=
  after.entries.filterMap fun (loc, entry) =>
    match entry with
    | .directory mode => if (before.find? loc).isSome then none else some (loc, mode)
    | .file _ => none

end FileSystem

end ParamTree
