import ParamTree.Files.RawText

/-!
# File paths

A path is written with slashes between names. Two readings of its bytes are used.

`Route.ofPath?` is the reading of the file system: every name counts, `.` and
`..` included, and a slash at the end asks for a directory. `normalNames` is the
reading of a path as a name for a document: a `.` that does not start the path is
dropped. From the second come the file name, its stem and its extension.
-/

namespace ParamTree

/-- Why a file-system operation failed. -/
inductive FileFailure where
  | notFound
  | alreadyExists
  | notDirectory
  | isDirectory
  | nameTooLong
  | nulByte
  | notText
  /-- A directory was to be new and was there already. -/
  | directoryExists
  /-- A directory without a parent could not be made. -/
  | noParent
deriving DecidableEq, Repr

/-- What the system says about a failure. -/
def FileFailure.message : FileFailure → String
  | notFound => "No such file or directory (os error 2)"
  | alreadyExists => "File exists (os error 17)"
  | notDirectory => "Not a directory (os error 20)"
  | isDirectory => "Is a directory (os error 21)"
  | nameTooLong => "File name too long (os error 36)"
  | nulByte => "file name contained an unexpected NUL byte"
  | notText => "stream did not contain valid UTF-8"
  | directoryExists => "directory already exists"
  | noParent => "failed to create whole tree"

namespace Files

/-- The byte between names. -/
def slash : UInt8 := 0x2f

/-- The byte before an extension. -/
def point : UInt8 := 0x2e

/-- The pieces of `bs` between slashes, after the piece `word` that is being read. -/
def splitSlashes (word : List UInt8) : List UInt8 → List (List UInt8)
  | [] => [word]
  | b :: bs => if b = slash then word :: splitSlashes [] bs else splitSlashes (word ++ [b]) bs

/-- The names of a path: its pieces between slashes that are not empty. -/
def names (path : RawText) : List RawText :=
  ((splitSlashes [] path.bytes).filter (!·.isEmpty)).map RawText.mk

/-- Does the path start at the root? -/
def isAbsolute (path : RawText) : Bool := path.bytes.head? == some slash

/-- Does the path end in a slash? -/
def isSlashed (path : RawText) : Bool := path.bytes.getLast? == some slash

/-- A name that stands for the directory itself counts only at the start of a
relative path. -/
def dropDots : List RawText → List RawText
  | [] => []
  | first :: rest => first :: rest.filter (· ≠ ".")

/-- The names of a path as a document's name. -/
def normalNames (absolute : Bool) (ns : List RawText) : List RawText :=
  if absolute then ns.filter (· ≠ ".") else dropDots ns

/-- The last name of a path, unless it leads upwards or nowhere. -/
def fileName? (path : RawText) : Option RawText :=
  match (normalNames (isAbsolute path) (names path)).getLast? with
  | some name => if name = "." || name = ".." then none else some name
  | none => none

/-- The stem and the extension of a file name, cut at its last point. A point that
starts the name does not count. -/
def cutExtension (name : RawText) : RawText × Option RawText :=
  let back := name.bytes.reverse
  let extension := (back.takeWhile (· ≠ point)).reverse
  let stem := ((back.dropWhile (· ≠ point)).drop 1).reverse
  if stem.isEmpty then (name, none) else (⟨stem⟩, some ⟨extension⟩)

/-- The file name without its extension. -/
def stem? (path : RawText) : Option RawText :=
  (fileName? path).map fun name => (cutExtension name).1

/-- The part of the file name after its last point. -/
def extension? (path : RawText) : Option RawText :=
  (fileName? path).bind fun name => (cutExtension name).2

/-- The path of an entry of a directory. -/
def join (directory name : RawText) : RawText :=
  if directory.bytes.isEmpty || isSlashed directory then directory ++ name
  else directory ++ "/" ++ name

end Files

/-- A path as the file system walks it. -/
structure Route where
  /-- Does the walk start at the root? -/
  absolute : Bool
  /-- The names to walk, `.` and `..` included. -/
  names : List RawText
  /-- Does a slash at the end ask for a directory? -/
  slashed : Bool
deriving DecidableEq, Repr

namespace Route

/-- Names longer than this cannot be entries. -/
def maxName : Nat := 255

/-- Paths from this length on are refused. -/
def maxPath : Nat := 4096

/-- The route of a path. -/
def ofPath? (path : RawText) : Except FileFailure Route :=
  if path.bytes.contains 0 then .error .nulByte
  else if maxPath ≤ path.bytes.length then .error .nameTooLong
  else .ok ⟨Files.isAbsolute path, Files.names path, Files.isSlashed path⟩

/-- Is this the empty path, which leads nowhere? -/
def isEmpty (r : Route) : Bool := !r.absolute && r.names.isEmpty

/-- The route to the enclosing directory, read as a document's name. -/
def parent? (r : Route) : Option Route :=
  match Files.normalNames r.absolute r.names with
  | [] => none
  | ns => some ⟨r.absolute, ns.dropLast, false⟩

end Route

end ParamTree
