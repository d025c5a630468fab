import ParamTree.CommandLine.Mentions

/-!
# The executable

Looks at the part of the disk that the run may ask for, runs the program over it,
makes the directories that the run made, and prints the answer.
-/

namespace ParamTree.Main

/-- The text of a location. -/
def pathOf (loc : Location) : String := "/" ++ "/".intercalate (loc.map RawText.display)

/-- The file at a path. Only documents are read. -/
def readContent (path : String) : IO Content := do
  if (DocumentFormat.ofPath? path).isNone then return .binary
  let bytes ← IO.FS.readBinFile path
  match String.fromUTF8? bytes with
  | some s => return .text s
  | none => return .binary

/-- The file system with what stands on the disk at a location. -/
def visit (fs : FileSystem) (loc : Location) : IO FileSystem := do
  if (fs.find? loc).isSome then return fs
  try
    let real ← IO.FS.realPath (pathOf loc)
    if ← real.isDir then return fs.add loc (.directory 0o755)
    else return fs.add loc (.file (← readContent (pathOf loc)))
  catch _ => return fs

/-- The locations of the entries of a directory. -/
def entriesOf (loc : Location) : IO (List Location) := do
  try
    let real ← IO.FS.realPath (pathOf loc)
    if ← real.isDir then return (← real.readDir).toList.map fun e => loc ++ [RawText.ofText e.fileName]
    else return []
  catch _ => return []

/-- The file system with what stands on the way along some paths. -/
def survey (fs : FileSystem) (paths : List String) : IO FileSystem :=
  (paths.flatMap fun path : String => fs.stops path).eraseDups.foldlM visit fs

/-- The file system with the entries of the directories among some paths. -/
def surveyEntries (fs : FileSystem) (paths : List String) : IO FileSystem := do
  let directories := (paths.map fun path : String => fs.target path).filter fs.hasDirectory
  let locations ← directories.flatMapM entriesOf
  locations.foldlM visit fs

/-- The part of the disk that a run with the given arguments may ask for. -/
def surveyFor (args : List String) : IO FileSystem := do
  let here := Files.names (← IO.currentDir).toString
  let mentioned := args.flatMap CommandLine.argumentTexts
  let fs ← survey ⟨[], here⟩ ("." :: mentioned)
  let fs ← surveyEntries fs mentioned
  survey fs fs.documentTexts

/-- The rights that three permission bits give. -/
def rightsOf (bits : Nat) : IO.AccessRight :=
  { read := bits &&& 4 != 0, write := bits &&& 2 != 0, execution := bits &&& 1 != 0 }

/-- Makes a directory with permission bits. -/
def makeDirectory (loc : Location) (mode : Nat) : IO Unit := do
  IO.FS.createDir (pathOf loc)
  IO.setAccessRights (pathOf loc)
    { user := rightsOf (mode / 64), group := rightsOf (mode / 8), other := rightsOf mode }

end ParamTree.Main

open ParamTree in
/-- The program. -/
def main (args : List String) : IO UInt32 := do
  let before ← Main.surveyFor args
  let (answer, after) := CommandLine.run args before
  for (loc, mode) in before.newDirectories after do
    Main.makeDirectory loc mode
  (← IO.getStdout).putStr answer.output
  (← IO.getStderr).putStr answer.messages
  return answer.status.toUInt32
