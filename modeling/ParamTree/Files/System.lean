import ParamTree.Files.Path

/-!
# A file system as a value

A file system is a list of entries, each at a location (the names from the root
down), and the location from which relative paths start. Programs change it by
making directories; the rest is asking.

`walk` follows names one by one. Each step asks for a directory to stand in, so
`a/..` leads back only where `a` is a directory.
-/

namespace ParamTree

/-- The names from the root down to an entry. -/
abbrev Location := List RawText

/-- What a file holds, as far as it can be read. -/
inductive Content where
  /-- Text in UTF-8. -/
  | text (s : String)
  /-- Bytes that are not UTF-8. -/
  | binary
deriving DecidableEq, Repr

/-- Something that stands at a location. -/
inductive FileEntry where
  | file (content : Content)
  /-- A directory and its permission bits. -/
  | directory (mode : Nat)
deriving DecidableEq, Repr

/-- Is the entry a directory? -/
def FileEntry.isDirectory : FileEntry → Bool
  | .directory _ => true
  | .file _ => false

/-- Entries at locations, and where relative paths start. -/
structure FileSystem where
  /-- The entries; the root is always there and not listed. -/
  entries : List (Location × FileEntry)
  /-- Where relative paths start. -/
  here : Location
deriving DecidableEq, Repr

namespace FileSystem

/-- The bits that a new directory never gets. -/
def mask : Nat := 0o022

/-- The permission bits of a directory made with the given mode; set-id bits do
not apply. -/
def directoryMode (mode : Nat) : Nat := (mode &&& 0o1777) ^^^ (mode &&& 0o1777 &&& mask)

/-- The mode used where none is asked for. -/
def defaultMode : Nat := 0o777

/-- What stands at a location. -/
def find? (fs : FileSystem) (loc : Location) : Option FileEntry :=
  if loc.isEmpty then some (.directory 0o755) else fs.entries.lookup loc

/-- Does a directory stand at the location? -/
def hasDirectory (fs : FileSystem) (loc : Location) : Bool :=
  match fs.find? loc with
  | some entry => entry.isDirectory
  | none => false

/-- The locations on the way down to a location, itself included and the root not. -/
def onTheWay (loc : Location) : List Location :=
  (List.range loc.length).map fun n => loc.take (n + 1)

/-- A file system whose only entries are the directories down to `here`. -/
def bare (here : Location) : FileSystem :=
  ⟨(onTheWay here).map fun loc => (loc, .directory 0o755), here⟩

/-! ## Walking -/

/-- Where one more name leads from a location. -/
def step (fs : FileSystem) (loc : Location) (name : RawText) : Except FileFailure Location :=
  if !fs.hasDirectory loc then .error .notDirectory
  else if name = "." then .ok loc
  else if name = ".." then .ok loc.dropLast
  else if Route.maxName < name.bytes.length then .error .nameTooLong
  else
    match fs.find? (loc ++ [name]) with
    | some _ => .ok (loc ++ [name])
    | none => .error .notFound

/-- Where a list of names leads from a location. -/
def walk (fs : FileSystem) (loc : Location) : List RawText → Except FileFailure Location
  | [] => .ok loc
  | name :: rest =>
    match fs.step loc name with
    | .ok next => fs.walk next rest
    | .error failure => .error failure

/-- Where the walk of a route starts. -/
def start (fs : FileSystem) (r : Route) : Location := if r.absolute then [] else fs.here

/-- The entry that a route leads to, with its location. -/
def follow (fs : FileSystem) (r : Route) : Except FileFailure (Location × FileEntry) :=
  if r.isEmpty then .error .notFound
  else
    match fs.walk (fs.start r) r.names with
    | .error failure => .error failure
    | .ok loc =>
      match fs.find? loc with
      | none => .error .notFound
      | some entry =>
        if r.slashed && !entry.isDirectory then .error .notDirectory else .ok (loc, entry)

/-- The entry that a path leads to, with its location. -/
def locate (fs : FileSystem) (path : RawText) : Except FileFailure (Location × FileEntry) :=
  match Route.ofPath? path with
  | .ok r => fs.follow r
  | .error failure => .error failure

/-! ## Asking -/

/-- Does the path lead to something? -/
def pathExists (fs : FileSystem) (path : RawText) : Bool :=
  match fs.locate path with
  | .ok _ => true
  | .error _ => false

/-- Does the path lead to a directory? -/
def isDirectory (fs : FileSystem) (path : RawText) : Bool :=
  match fs.locate path with
  | .ok (_, entry) => entry.isDirectory
  | .error _ => false

/-- Does the path lead to a file? -/
def isFile (fs : FileSystem) (path : RawText) : Bool :=
  match fs.locate path with
  | .ok (_, entry) => !entry.isDirectory
  | .error _ => false

/-- The text of the file at a path. -/
def readText (fs : FileSystem) (path : RawText) : Except FileFailure String :=
  match fs.locate path with
  | .error failure => .error failure
  | .ok (_, .directory _) => .error .isDirectory
  | .ok (_, .file (.text s)) => .ok s
  | .ok (_, .file .binary) => .error .notText

/-- The name of an entry that stands directly below `loc`. -/
def childName? (loc : Location) (entry : Location × FileEntry) : Option RawText :=
  match entry.1.getLast? with
  | some name => if entry.1.dropLast = loc then some name else none
  | none => none

/-- The names of the entries of the directory at a path, in no particular order. -/
def list (fs : FileSystem) (path : RawText) : Except FileFailure (List RawText) :=
  match fs.locate path with
  | .error failure => .error failure
  | .ok (_, .file _) => .error .notDirectory
  | .ok (loc, .directory _) => .ok (fs.entries.filterMap (childName? loc))

/-! ## Making directories -/

/-- The file system with one more entry. -/
def add (fs : FileSystem) (loc : Location) (entry : FileEntry) : FileSystem :=
  { fs with entries := fs.entries ++ [(loc, entry)] }

/-- A new entry is found at its location, and the others stay. -/
theorem find?_add {fs : FileSystem} {loc : Location} (entry : FileEntry)
    (h : fs.find? loc = none) (l : Location) :
    (fs.add loc entry).find? l = if l = loc then some entry else fs.find? l := by
  unfold find? at h ⊢
  by_cases hl : l.isEmpty
  · by_cases hloc : loc.isEmpty
    · simp [hloc] at h
    · have hne : l ≠ loc := fun e => hloc (e ▸ hl)
      simp [hl, hne]
  · by_cases hloc : loc.isEmpty
    · simp [hloc] at h
    · simp only [hloc, Bool.false_eq_true, if_false] at h
      simp only [hl, Bool.false_eq_true, if_false, add, List.lookup_append]
      by_cases e : l = loc
      · subst e
        simp [h]
      · have hk : (l == loc) = false := by simp [e]
        simp [List.lookup_cons, hk, e]

/-- Makes the directory at the end of a route, whose parent must be there. -/
def makeDirectory (fs : FileSystem) (mode : Nat) (r : Route) : Except FileFailure FileSystem :=
  match r.names.getLast? with
  | none => .error (if r.absolute then .alreadyExists else .notFound)
  | some name =>
    match fs.walk (fs.start r) r.names.dropLast with
    | .error failure => .error failure
    | .ok parent =>
      if !fs.hasDirectory parent then .error .notDirectory
      else if name = "." || name = ".." then .error .alreadyExists
      else if Route.maxName < name.bytes.length then .error .nameTooLong
      else
        match fs.find? (parent ++ [name]) with
        | some _ => .error .alreadyExists
        | none => .ok (fs.add (parent ++ [name]) (.directory (directoryMode mode)))

/-- Does the route lead to a directory? -/
def leadsToDirectory (fs : FileSystem) (r : Route) : Bool :=
  match fs.follow r with
  | .ok (_, entry) => entry.isDirectory
  | .error _ => false

/-- Makes the directory at the end of a route and, where they are missing, those
above it. A directory that is there already is no failure. `fuel` counts the
parents that may be tried. The file system that a failure leaves comes with it. -/
def makeTreeWithin (mode : Nat) : Nat → FileSystem → Route → FileSystem × Option FileFailure
  | 0, fs, _ => (fs, some .noParent)
  | fuel + 1, fs, r =>
    if r.isEmpty then (fs, none)
    else
      match fs.makeDirectory mode r with
      | .ok fs => (fs, none)
      | .error .notFound =>
        match r.parent? with
        | none => (fs, some .noParent)
        | some parent =>
          match makeTreeWithin mode fuel fs parent with
          | (fs, some failure) => (fs, some failure)
          | (fs, none) =>
            match fs.makeDirectory mode r with
            | .ok fs => (fs, none)
            | .error failure =>
              if fs.leadsToDirectory r then (fs, none) else (fs, some failure)
      | .error failure => if fs.leadsToDirectory r then (fs, none) else (fs, some failure)

/-- Makes the directory at a path and those above it that are missing. -/
def makeTree (fs : FileSystem) (mode : Nat) (path : RawText) : FileSystem × Option FileFailure :=
  match Route.ofPath? path with
  | .error failure => (fs, some failure)
  | .ok r => makeTreeWithin mode (r.names.length + 2) fs r

/-! ## Placing and removing entries -/

/-- Where a path leads once `.` and `..` are taken out, whether or not something
stands there. -/
def target (fs : FileSystem) (path : RawText) : Location :=
  (Files.names path).foldl
    (fun loc (name : RawText) =>
      if name = "." then loc else if name = ".." then loc.dropLast else loc ++ [name])
    (if Files.isAbsolute path then [] else fs.here)

/-- The file system with a directory at a location and at all those above it. -/
def withDirectory (fs : FileSystem) (loc : Location) : FileSystem :=
  (onTheWay loc).foldl
    (fun fs l => if (fs.find? l).isSome then fs else fs.add l (.directory (directoryMode defaultMode)))
    fs

/-- The file system with a file at a path, over the one that stood there. -/
def withFile (fs : FileSystem) (path : RawText) (content : Content) : FileSystem :=
  let loc := fs.target path
  let fs := fs.withDirectory loc.dropLast
  { fs with entries := fs.entries.filter (·.1 ≠ loc) }.add loc (.file content)

/-- The file system without the entry at a path and without what stands below it. -/
def without (fs : FileSystem) (path : RawText) : FileSystem :=
  let loc := fs.target path
  { fs with entries := fs.entries.filter fun entry => !loc.isPrefixOf entry.1 }

/-- The text order by characters. -/
def textLE (a b : String) : Bool := !decide (b < a)

/-- The line of an entry in a listing: directories end with a slash, followed by
their permission bits where `modes` asks for them. -/
def listingLine (modes : Bool) (path : String) : FileEntry → String
  | .file _ => path
  | .directory mode =>
    if modes then path ++ "/ " ++ String.ofList (Nat.toDigits 8 mode) else path ++ "/"

/-- Everything below `here`, one line each, in text order. -/
def listing (fs : FileSystem) (modes : Bool) : List String :=
  let lines := fs.entries.filterMap fun (loc, entry) =>
    if fs.here.isPrefixOf loc && loc.length ≠ fs.here.length then
      some (listingLine modes ("/".intercalate ((loc.drop fs.here.length).map RawText.display)) entry)
    else none
  lines.mergeSort textLE

end FileSystem

end ParamTree
