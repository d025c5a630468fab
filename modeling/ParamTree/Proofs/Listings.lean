import ParamTree.Proofs.Directories

/-!
# Entries of a directory

A directory is asked for the names of its entries, and an entry is then asked for by its
path: that of the directory with the name behind it. The two agree (`locate_join`), with one
exception: the path of an entry can be too long to be looked up, though the entry is there.
-/

namespace ParamTree

/-- Can an entry have this name? -/
structure RawText.EntryName (name : RawText) : Prop where
  filled : name.bytes ≠ []
  noSlash : Files.slash ∉ name.bytes
  noNul : 0 ∉ name.bytes
  notHere : name ≠ "."
  notUp : name ≠ ".."
  short : name.bytes.length ≤ Route.maxName

namespace Files

variable {directory name : RawText}

/-! ## The path of an entry -/

theorem splitSlashes_append (word bs cs : List UInt8) :
    splitSlashes word (bs ++ slash :: cs) = splitSlashes word bs ++ splitSlashes [] cs := by
  induction bs generalizing word with
  | nil => simp [splitSlashes]
  | cons b bs ih =>
      rw [List.cons_append, splitSlashes, splitSlashes]
      split
      · rw [ih, List.cons_append]
      · exact ih (word ++ [b])

theorem splitSlashes_whole (word : List UInt8) {bs : List UInt8} (h : slash ∉ bs) :
    splitSlashes word bs = [word ++ bs] := by
  induction bs generalizing word with
  | nil => rw [splitSlashes, List.append_nil]
  | cons b bs ih =>
      rw [List.mem_cons, not_or] at h
      rw [splitSlashes, if_neg fun same => h.1 same.symm, ih _ h.2, List.append_assoc,
        List.singleton_append]

/-- The path of an entry has one slash between the directory and the name. -/
theorem join_bytes (name : RawText) (filled : directory.bytes ≠ []) :
    ∃ before, (join directory name).bytes = before ++ slash :: name.bytes ∧
      (directory.bytes = before ∨ directory.bytes = before ++ [slash]) := by
  have empty : directory.bytes.isEmpty = false := by simpa using filled
  rw [join, empty, Bool.false_or]
  split
  · next slashed =>
    obtain ⟨before, h⟩ := List.getLast?_eq_some_iff.mp (beq_iff_eq.mp slashed)
    refine ⟨before, ?_, .inr h⟩
    rw [RawText.bytes_append, h, List.append_assoc, List.singleton_append]
  · refine ⟨directory.bytes, ?_, .inl rfl⟩
    rw [RawText.bytes_append, RawText.bytes_append, List.append_assoc]
    rfl

theorem names_join (filled : directory.bytes ≠ []) (entry : name.EntryName) :
    names (join directory name) = names directory ++ [name] := by
  obtain ⟨before, path, hdirectory⟩ := join_bytes name filled
  have last : splitSlashes [] name.bytes = [name.bytes] := splitSlashes_whole [] entry.noSlash
  have same : (splitSlashes [] directory.bytes).filter (!·.isEmpty) =
      (splitSlashes [] before).filter (!·.isEmpty) := by
    rcases hdirectory with h | h
    · rw [h]
    · rw [h, splitSlashes_append]
      simp [splitSlashes]
  rw [names, names, path, splitSlashes_append, last, same]
  simp [entry.filled]

theorem isAbsolute_join (name : RawText) (filled : directory.bytes ≠ []) :
    isAbsolute (join directory name) = isAbsolute directory := by
  obtain ⟨before, path, hdirectory⟩ := join_bytes name filled
  rw [isAbsolute, isAbsolute, path]
  rcases hdirectory with h | h
  · rw [← h]
    obtain ⟨first, rest, split⟩ := List.exists_cons_of_ne_nil filled
    rw [split]
    rfl
  · rw [h]
    cases before <;> rfl

theorem isSlashed_join (filled : directory.bytes ≠ []) (entry : name.EntryName) :
    isSlashed (join directory name) = false := by
  obtain ⟨before, path, -⟩ := join_bytes name filled
  obtain ⟨start, last, split⟩ : ∃ start last, name.bytes = start ++ [last] :=
    ⟨_, _, (List.dropLast_concat_getLast entry.filled).symm⟩
  have other : last ≠ slash := by
    rintro rfl
    exact entry.noSlash (by simp [split])
  rw [isSlashed, path, split, ← List.cons_append, ← List.append_assoc, List.getLast?_concat]
  simpa using other

theorem zero_mem_join (filled : directory.bytes ≠ []) (entry : name.EntryName) :
    0 ∈ (join directory name).bytes ↔ 0 ∈ directory.bytes := by
  obtain ⟨before, path, hdirectory⟩ := join_bytes name filled
  have other : (0 : UInt8) ≠ slash := by decide
  rw [path]
  rcases hdirectory with h | h
  · simp [h, other, entry.noNul]
  · simp [h, other, entry.noNul]

/-- The last name of the path of an entry is its own. -/
theorem fileName?_join (filled : directory.bytes ≠ []) (entry : name.EntryName) :
    fileName? (join directory name) = some name := by
  have kept : ∀ ns : List RawText, (ns ++ [name]).filter (fun n : RawText => decide (n ≠ ".")) =
      ns.filter (fun n : RawText => decide (n ≠ ".")) ++ [name] := by
    intro ns
    rw [List.filter_append, List.filter_cons_of_pos (by simpa using entry.notHere), List.filter_nil]
  have last : ∀ absolute ns, (normalNames absolute (ns ++ [name])).getLast? = some name := by
    intro absolute ns
    cases absolute with
    | true => rw [normalNames, if_pos rfl, kept, List.getLast?_concat]
    | false =>
        cases ns with
        | nil => rfl
        | cons first rest =>
            rw [normalNames, if_neg Bool.false_ne_true, List.cons_append, dropDots, kept,
              ← List.cons_append, List.getLast?_concat]
  rw [fileName?, names_join filled entry, last]
  simp [entry.notHere, entry.notUp]

/-! ## Steps in place -/

/-- The path after a number of steps that stay where they are. -/
def inPlace (n : Nat) (path : RawText) : RawText :=
  ⟨(List.replicate n [point, slash]).flatten ++ path.bytes⟩

theorem inPlace_succ (n : Nat) (path : RawText) :
    (inPlace (n + 1) path).bytes = point :: slash :: (inPlace n path).bytes := by
  simp [inPlace, List.replicate_succ]

theorem names_inPlace (n : Nat) (path : RawText) :
    names (inPlace n path) = List.replicate n ("." : RawText) ++ names path := by
  induction n with
  | zero => rfl
  | succ n ih =>
      have first : splitSlashes [] (inPlace (n + 1) path).bytes =
          [point] :: splitSlashes [] (inPlace n path).bytes := by
        rw [inPlace_succ]
        rfl
      rw [names, first, List.filter_cons_of_pos rfl, List.map_cons, ← names.eq_1, ih,
        List.replicate_succ, List.cons_append]
      rfl

end Files

/-- Which routes a path can have: those of its names, if it has no zero byte and is short
enough. -/
theorem Route.ofPath?_ok_iff {path : RawText} {r : Route} : ofPath? path = .ok r ↔
    0 ∉ path.bytes ∧ path.bytes.length < maxPath ∧
      r = ⟨Files.isAbsolute path, Files.names path, Files.isSlashed path⟩ := by
  unfold ofPath?
  by_cases zero : 0 ∈ path.bytes
  · simp [zero]
  · by_cases long : maxPath ≤ path.bytes.length
    · simp [zero, long, Nat.not_lt.mpr long]
    · simp [zero, long, Nat.not_le.mp long, eq_comm]

namespace FileSystem

variable {fs : FileSystem} {r : Route} {directory name : RawText} {loc out : Location}
  {entry : FileEntry} {mode : Nat}

/-! ## Looking up an entry -/

theorem follow_ok_iff : fs.follow r = .ok (loc, entry) ↔
    r.isEmpty = false ∧ fs.walk (fs.start r) r.names = .ok loc ∧ fs.find? loc = some entry ∧
      (r.slashed = true → entry.isDirectory = true) := by
  unfold follow
  cases r.isEmpty with
  | true => simp
  | false =>
      cases fs.walk (fs.start r) r.names with
      | error failure => simp
      | ok reached =>
          cases stands : fs.find? reached with
          | none =>
              simp only [Bool.false_eq_true, if_false, stands, reduceCtorEq, false_iff]
              rintro ⟨-, same, found, -⟩
              cases same
              rw [stands] at found
              cases found
          | some e =>
              simp only [Bool.false_eq_true, if_false, stands, true_and, Except.ok.injEq]
              constructor
              · intro h
                split at h
                · cases h
                · next admitted =>
                  cases h
                  exact ⟨rfl, stands, by simpa using admitted⟩
              · rintro ⟨rfl, found, admitted⟩
                obtain rfl := Option.some.inj (stands.symm.trans found)
                rw [if_neg (by simpa using admitted)]

theorem locate_ok_iff {path : RawText} : fs.locate path = .ok (loc, entry) ↔
    ∃ r, Route.ofPath? path = .ok r ∧ fs.follow r = .ok (loc, entry) := by
  unfold locate
  cases Route.ofPath? path <;> simp

theorem filled_of_locate {found : Location × FileEntry} (h : fs.locate directory = .ok found) :
    directory.bytes ≠ [] := by
  rintro empty
  obtain ⟨bytes⟩ := directory
  obtain rfl : bytes = [] := empty
  cases h

/-- One name more leads from a directory to the entry of this name. -/
theorem follow_concat (followed : fs.follow r = .ok (loc, .directory mode))
    (proper : name.EntryName) :
    fs.follow ⟨r.absolute, r.names ++ [name], false⟩ = .ok (out, entry) ↔
      out = loc ++ [name] ∧ fs.find? (loc ++ [name]) = some entry := by
  obtain ⟨-, walked, stands, -⟩ := follow_ok_iff.mp followed
  have there : fs.hasDirectory loc = true := by
    rw [hasDirectory, stands]
    rfl
  have single : ∀ l, fs.walk l [name] = fs.step l name := by
    intro l
    rw [walk]
    cases fs.step l name <;> rfl
  have further : fs.walk (fs.start r) (r.names ++ [name]) = .ok out ↔
      out = loc ++ [name] ∧ ∃ entry, fs.find? (loc ++ [name]) = some entry := by
    rw [walk_append_ok, walked]
    simp [single, step_ok_iff, there, proper.notHere, proper.notUp, proper.short]
  have same : fs.start ⟨r.absolute, r.names ++ [name], false⟩ = fs.start r := rfl
  rw [follow_ok_iff, same, further]
  constructor
  · rintro ⟨-, ⟨rfl, -⟩, found, -⟩
    exact ⟨rfl, found⟩
  · rintro ⟨rfl, found⟩
    exact ⟨by simp [Route.isEmpty], ⟨rfl, entry, found⟩, found,
      fun slashed => absurd slashed Bool.false_ne_true⟩

/-- The path of an entry leads to it, if it is not too long. -/
theorem locate_join (there : fs.locate directory = .ok (loc, .directory mode))
    (proper : name.EntryName) :
    fs.locate (Files.join directory name) = .ok (out, entry) ↔
      (Files.join directory name).bytes.length < Route.maxPath ∧ out = loc ++ [name] ∧
        fs.find? (loc ++ [name]) = some entry := by
  obtain ⟨r, parsed, followed⟩ := locate_ok_iff.mp there
  rw [← follow_concat followed proper]
  obtain ⟨noZero, -, rfl⟩ := Route.ofPath?_ok_iff.mp parsed
  have filled := filled_of_locate there
  -- the route of the entry is that of the directory with the name behind it
  have route : ∀ r, Route.ofPath? (Files.join directory name) = .ok r ↔
      (Files.join directory name).bytes.length < Route.maxPath ∧
        r = ⟨Files.isAbsolute directory, Files.names directory ++ [name], false⟩ := by
    intro r
    rw [Route.ofPath?_ok_iff, Files.zero_mem_join filled proper, Files.isAbsolute_join name filled,
      Files.names_join filled proper, Files.isSlashed_join filled proper]
    simp [noZero]
  rw [locate_ok_iff]
  simp only [route, and_assoc, exists_and_left, exists_eq_left]

theorem walk_inPlace (there : fs.hasDirectory loc = true) (n : Nat) (names : List RawText) :
    fs.walk loc (List.replicate n ("." : RawText) ++ names) = fs.walk loc names := by
  induction n with
  | zero => rfl
  | succ n ih =>
      have stays : fs.step loc "." = .ok loc := step_ok_iff.mpr ⟨there, .inl ⟨rfl, rfl⟩⟩
      rw [List.replicate_succ, List.cons_append, walk, stays]
      exact ih

/-- Steps in place lead nowhere else, as long as the path does not become too long. -/
theorem locate_inPlace {path : RawText} (there : fs.hasDirectory fs.here = true)
    (relative : Files.isAbsolute path = false) (n : Nat)
    (short : (Files.inPlace n path).bytes.length < Route.maxPath)
    (located : fs.locate path = .ok (loc, entry)) :
    fs.locate (Files.inPlace n path) = .ok (loc, entry) := by
  have filled := filled_of_locate located
  obtain ⟨r, parsed, followed⟩ := locate_ok_iff.mp located
  obtain ⟨noZero, -, rfl⟩ := Route.ofPath?_ok_iff.mp parsed
  obtain ⟨-, walked, stands, slashed⟩ := follow_ok_iff.mp followed
  have first : Files.isAbsolute (Files.inPlace n path) = false := by
    cases n with
    | zero => exact relative
    | succ n =>
        rw [Files.isAbsolute, Files.inPlace_succ]
        rfl
  have last : Files.isSlashed (Files.inPlace n path) = Files.isSlashed path := by
    obtain ⟨start, last, split⟩ : ∃ start last, path.bytes = start ++ [last] :=
      ⟨_, _, (List.dropLast_concat_getLast filled).symm⟩
    rw [Files.isSlashed, Files.isSlashed, Files.inPlace, split, ← List.append_assoc,
      List.getLast?_concat, List.getLast?_concat]
  have zero : 0 ∉ (Files.inPlace n path).bytes := by
    simp [Files.inPlace, noZero, Files.point, Files.slash]
  refine locate_ok_iff.mpr ⟨_, Route.ofPath?_ok_iff.mpr ⟨zero, short, rfl⟩, ?_⟩
  refine follow_ok_iff.mpr ⟨?_, ?_, stands, ?_⟩
  · simp [Route.isEmpty, Files.names_inPlace, Files.names_ne_nil relative filled]
  · simp only [start, first, relative, Files.names_inPlace] at walked ⊢
    exact (walk_inPlace there n _).trans walked
  · rw [last]
    exact slashed

/-! ## Files in a directory -/

/-- Does a file of this name stand in the directory at the path? -/
def HasFile (fs : FileSystem) (directory name : RawText) : Prop :=
  ∃ loc mode content, fs.locate directory = .ok (loc, .directory mode) ∧
    fs.find? (loc ++ [name]) = some (.file content)

theorem list_ok {listed : List RawText} (listing : fs.list directory = .ok listed) :
    ∃ loc mode, fs.locate directory = .ok (loc, .directory mode) ∧
      listed = fs.entries.filterMap (childName? loc) := by
  unfold list at listing
  split at listing
  · cases listing
  · cases listing
  · next loc mode located =>
    cases listing
    exact ⟨loc, mode, located, rfl⟩

/-- The files of a directory are listed. -/
theorem mem_list {listed : List RawText} (listing : fs.list directory = .ok listed)
    (there : fs.HasFile directory name) : name ∈ listed := by
  obtain ⟨loc, mode, located, rfl⟩ := list_ok listing
  obtain ⟨loc', mode', content, located', found⟩ := there
  cases located.symm.trans located'
  have entry : (loc ++ [name], .file content) ∈ fs.entries := by
    rw [find?, if_neg (by simp)] at found
    obtain ⟨before, after, split, -⟩ := List.lookup_eq_some_iff.mp found
    rw [split]
    simp
  exact List.mem_filterMap.mpr ⟨_, entry, by simp [childName?]⟩

/-- A file of a directory is seen by its path, if the path is not too long. -/
theorem isFile_join_iff {listed : List RawText} (listing : fs.list directory = .ok listed)
    (proper : name.EntryName) :
    fs.isFile (Files.join directory name) = true ↔
      fs.HasFile directory name ∧ (Files.join directory name).bytes.length < Route.maxPath := by
  obtain ⟨loc, mode, there, -⟩ := list_ok listing
  have seen : fs.isFile (Files.join directory name) = true ↔
      ∃ out content, fs.locate (Files.join directory name) = .ok (out, .file content) := by
    rw [isFile]
    split
    · next out entry located => cases entry <;> simp [located, FileEntry.isDirectory]
    · next located => simp [located]
  rw [seen]
  simp only [locate_join there proper]
  constructor
  · rintro ⟨out, content, short, -, found⟩
    exact ⟨⟨loc, mode, content, there, found⟩, short⟩
  · rintro ⟨⟨loc', mode', content, there', found⟩, short⟩
    cases there.symm.trans there'
    exact ⟨_, content, short, rfl, found⟩

end FileSystem

end ParamTree
