import Mathlib.Data.String.Basic
import ParamTree.Proofs.Building
import ParamTree.Proofs.DocumentNames

/-!
# Command directories

The documents of a directory are the files whose names end in the extension of a format.
`documentPaths` finds them in the order of their names whatever the order of the listing
(`documentPaths_perm`), so the commands do not depend on that order either. They are then
loaded one by one. What a set holds after some documents is exactly their commands
(`CommandSet.Commands`), and the load stops at the first document that has a fault: a stem
seen before, or a file that is no schema (`DocumentFault`). Two kinds of documents are left out
instead (`CommandSet.documents_left_out`): those whose stem is no text, and those whose path is
too long to be looked up.
-/

namespace ParamTree

/-! ## The documents of a directory -/

/-- Have the documents at two paths different stems? -/
def Apart (path other : RawText) : Prop :=
  ∀ stem, DocumentName path stem → ¬DocumentName other stem

/-- Is there a document at the path whose stem is a text? -/
def FileSystem.IsDocument (fs : FileSystem) (path : RawText) : Prop :=
  fs.isFile path = true ∧ ∃ stem : String, DocumentName path stem

/-- `docs` are the paths of the documents among the entries with the given names, in the order
of their bytes. -/
structure FileSystem.Documents (fs : FileSystem) (directory : RawText)
    (names docs : List RawText) : Prop where
  sorted : docs.Pairwise (· ≤ ·)
  document : ∀ path ∈ docs, fs.IsDocument path
  /-- All the others are no documents. -/
  all : ∃ others, (docs ++ others).Perm (names.map (Files.join directory)) ∧
    ∀ path ∈ others, ¬fs.IsDocument path

theorem isDocument_iff {fs : FileSystem} {path : RawText} : fs.IsDocument path ↔
    (fs.isFile path && (DocumentFormat.ofPath? path).isSome) = true ∧
      (commandName? path).isSome = true := by
  rw [FileSystem.IsDocument, Bool.and_eq_true, Option.isSome_iff_exists (x := commandName? path)]
  simp only [documentName_iff, commandName?_iff]
  constructor
  · rintro ⟨file, stem, hstem, format⟩
    exact ⟨⟨file, format⟩, stem, hstem⟩
  · rintro ⟨⟨file, format⟩, stem, hstem⟩
    exact ⟨file, stem, hstem, format⟩

theorem mergeSort_sorted (names : List RawText) : names.mergeSort.Pairwise (· ≤ ·) := by
  have trans : ∀ a b c : RawText, decide (a ≤ b) = true → decide (b ≤ c) = true →
      decide (a ≤ c) = true := by
    simp only [decide_eq_true_eq]
    exact fun _ _ _ => List.le_trans
  have total : ∀ a b : RawText, (decide (a ≤ b) || decide (b ≤ a)) = true := by
    simp only [Bool.or_eq_true, decide_eq_true_eq]
    exact fun a b => List.le_total a.bytes b.bytes
  exact (List.pairwise_mergeSort trans total names).imp of_decide_eq_true

/-- Sorting forgets the order there was. -/
theorem mergeSort_eq_of_perm {names others : List RawText} (h : names.Perm others) :
    names.mergeSort = others.mergeSort := by
  have antisymm : ∀ a b : RawText, a ≤ b → b ≤ a → a = b := by
    intro a b hab hba
    obtain ⟨a⟩ := a
    obtain ⟨b⟩ := b
    exact congrArg RawText.mk (List.le_antisymm hab hba)
  exact List.Perm.eq_of_pairwise (fun a b _ _ => antisymm a b) (mergeSort_sorted names)
    (mergeSort_sorted others)
    ((List.mergeSort_perm names _).trans (h.trans (List.mergeSort_perm others _).symm))

/-- The paths of entries are in the order of their names. -/
theorem join_le {directory a b : RawText} (h : a ≤ b) :
    Files.join directory a ≤ Files.join directory b := by
  rw [Files.join, Files.join]
  split
  · exact List.append_left_le h
  · exact List.append_left_le h

theorem documentPaths_perm {fs : FileSystem} {directory : RawText} {names others : List RawText}
    (h : names.Perm others) : documentPaths fs directory names = documentPaths fs directory others := by
  rw [documentPaths, documentPaths, mergeSort_eq_of_perm h]

theorem documents_documentPaths (fs : FileSystem) (directory : RawText) (names : List RawText) :
    fs.Documents directory names
      ((documentPaths fs directory names).filter fun path => (commandName? path).isSome) where
  sorted := (((mergeSort_sorted names).map (Files.join directory) fun _ _ => join_le).filter _).filter _
  document path h := by
    rw [documentPaths, List.filter_filter] at h
    have both := (List.mem_filter.mp h).2
    rw [Bool.and_eq_true] at both
    exact isDocument_iff.mpr both.symm
  all := by
    rw [documentPaths, List.filter_filter]
    refine ⟨_, (List.filter_append_perm _ _).trans ((List.mergeSort_perm names _).map _), ?_⟩
    intro path h document
    have not := (List.mem_filter.mp h).2
    rw [(isDocument_iff.mp document).1, (isDocument_iff.mp document).2] at not
    cases not

/-- A name of the listing is that of a document exactly if it is that of a file with a text as
its stem, and the path to it is not too long. -/
theorem FileSystem.Documents.mem_join_iff {fs : FileSystem} {directory name : RawText}
    {listed docs : List RawText} (holds : fs.Documents directory listed docs)
    (listing : fs.list directory = .ok listed) (proper : name.EntryName) :
    Files.join directory name ∈ docs ↔ fs.HasFile directory name ∧
      (∃ stem : String, name.NamesDocument stem) ∧
      (Files.join directory name).bytes.length < Route.maxPath := by
  have file := isFile_join_iff listing proper
  obtain ⟨loc, mode, there, -⟩ := list_ok listing
  simp only [← documentName_join (filled_of_locate there) proper]
  constructor
  · intro h
    obtain ⟨isFile, stem⟩ := holds.document _ h
    obtain ⟨there, short⟩ := file.mp isFile
    exact ⟨there, stem, short⟩
  · rintro ⟨there, stem, short⟩
    obtain ⟨others, all, rest⟩ := holds.all
    have listedPath := List.mem_map_of_mem (f := Files.join directory) (mem_list listing there)
    rcases List.mem_append.mp (all.mem_iff.mpr listedPath) with h | h
    · exact h
    · exact absurd ⟨file.mpr ⟨there, short⟩, stem⟩ (rest _ h)

/-! ## Placing a command -/

namespace CommandSet

theorem place_perm {name : String} (s : Schema) {commands : List (String × Schema)}
    (fresh : name ∉ commands.map Prod.fst) :
    (place name s commands).Perm ((name, s) :: commands) := by
  induction commands with
  | nil => exact .refl _
  | cons c rest ih =>
      rw [List.map_cons, List.mem_cons, not_or] at fresh
      rw [place, if_neg fun same => fresh.1 same.symm]
      split
      · exact .refl _
      · exact ((ih fresh.2).cons c).trans (.swap _ _ _)

theorem place_sorted {name : String} (s : Schema) {commands : List (String × Schema)}
    (fresh : name ∉ commands.map Prod.fst) (sorted : (commands.map Prod.fst).Pairwise (· < ·)) :
    ((place name s commands).map Prod.fst).Pairwise (· < ·) := by
  induction commands with
  | nil => exact List.pairwise_singleton _ _
  | cons c rest ih =>
      have before := sorted
      rw [List.map_cons, List.mem_cons, not_or] at fresh
      rw [List.map_cons, List.pairwise_cons] at sorted
      rw [place, if_neg fun same => fresh.1 same.symm]
      split
      · next first =>
        refine List.pairwise_cons.mpr ⟨?_, before⟩
        refine List.forall_mem_cons.mpr ⟨first, fun n hn => ?_⟩
        exact String.lt_trans first (sorted.1 n hn)
      · next notFirst =>
        -- behind `c` stand the new command, which is not before it, and those that were there
        refine List.pairwise_cons.mpr ⟨fun n hn => ?_, ih fresh.2 sorted.2⟩
        have hn := (((place_perm s fresh.2).map Prod.fst).mem_iff).mp hn
        rcases List.mem_cons.mp hn with rfl | hn
        · exact lt_of_le_of_ne (String.not_lt.mp notFirst) fun same => fresh.1 same.symm
        · exact sorted.1 n hn

end CommandSet

/-! ## The commands of documents -/

/-- The command of the document at `path`: its stem and its schema. -/
def CommandOf (fs : FileSystem) (path : RawText) (c : String × Schema) : Prop :=
  DocumentName path c.1 ∧ Document.loadSchema fs path = .ok c.2

theorem CommandOf.unique {fs : FileSystem} {path : RawText} {c d : String × Schema}
    (h : CommandOf fs path c) (h' : CommandOf fs path d) : c = d :=
  Prod.ext (RawText.ofText_inj.mp (h.1.unique h'.1)) (Except.ok.inj (h.2.symm.trans h'.2))

/-- The commands of the set are those of the documents at the paths, one each and in the
order of their names. -/
structure CommandSet.Commands (set : CommandSet) (fs : FileSystem) (docs : List RawText) : Prop where
  apart : docs.Pairwise Apart
  sorted : set.names.Pairwise (· < ·)
  count : set.commands.length = docs.length
  each : ∀ path ∈ docs, ∃ c ∈ set.commands, CommandOf fs path c
  source : ∀ c ∈ set.commands, ∃ path ∈ docs, CommandOf fs path c

/-- Why the document at `path` gives no command after those at the paths `before`. -/
inductive DocumentFault (fs : FileSystem) (before : List RawText) (path : RawText) :
    CommandSetError → Prop
  | repeated {other} {stem : String} (earlier : other ∈ before) (name : DocumentName path stem)
      (same : DocumentName other stem) : DocumentFault fs before path (.duplicate stem)
  | unreadable {e} (fresh : ∀ other ∈ before, Apart other path)
      (h : Document.loadSchema fs path = .error e) : DocumentFault fs before path (.load e)

namespace CommandSet

variable {fs : FileSystem} {set set' : CommandSet} {before paths : List RawText}
  {path : RawText} {name : String} {s : Schema} {e : CommandSetError}

theorem commands_empty (fs : FileSystem) (directory : RawText) :
    Commands { origin := directory } fs [] where
  apart := .nil
  sorted := .nil
  count := rfl
  each := by simp
  source := by simp

namespace Commands

theorem get?_iff (holds : set.Commands fs before) :
    set.get? name = some s ↔ ∃ path ∈ before, CommandOf fs path (name, s) := by
  have distinct : (set.commands.map Prod.fst).Nodup := holds.sorted.imp fun h => ne_of_lt h
  constructor
  · intro h
    exact holds.source _ (mem_of_lookup h)
  · rintro ⟨path, hpath, h⟩
    obtain ⟨c, hc, own⟩ := holds.each path hpath
    obtain rfl := own.unique h
    exact lookup_of_mem distinct hc

/-- A name is taken exactly if it is the stem of a document before. -/
theorem contains_iff (holds : set.Commands fs before) :
    set.contains name = true ↔ ∃ path ∈ before, DocumentName path name := by
  rw [contains, Option.isSome_iff_exists]
  constructor
  · rintro ⟨s, h⟩
    obtain ⟨path, hpath, h⟩ := holds.get?_iff.mp h
    exact ⟨path, hpath, h.1⟩
  · rintro ⟨path, hpath, stem⟩
    obtain ⟨c, -, h⟩ := holds.each path hpath
    obtain rfl := RawText.ofText_inj.mp (h.1.unique stem)
    exact ⟨c.2, holds.get?_iff.mpr ⟨path, hpath, h⟩⟩

theorem fresh_iff (holds : set.Commands fs before) (stem : DocumentName path name) :
    (∀ other ∈ before, Apart other path) ↔ set.contains name = false := by
  rw [← Bool.not_eq_true, holds.contains_iff]
  constructor
  · rintro fresh ⟨other, hother, same⟩
    exact fresh other hother name same stem
  · intro fresh other hother shared same stem'
    rw [← stem.unique stem'] at same
    exact fresh ⟨other, hother, same⟩

/-- A document with a new stem adds its command. -/
theorem insert (holds : set.Commands fs before) (command : CommandOf fs path (name, s))
    (fresh : ∀ other ∈ before, Apart other path) :
    (set.insert name s).Commands fs (before ++ [path]) := by
  have new : name ∉ set.commands.map Prod.fst := by
    rw [← lookup_isSome_iff_mem, Bool.not_eq_true]
    exact (holds.fresh_iff command.1).mp fresh
  -- up to their order the commands are the new one and those before
  have placed : (set.insert name s).commands.Perm ((name, s) :: set.commands) := place_perm s new
  constructor
  · rw [List.pairwise_append]
    refine ⟨holds.apart, List.pairwise_singleton _ _, fun other hother p hp => ?_⟩
    rw [List.mem_singleton.mp hp]
    exact fresh other hother
  · exact place_sorted s new holds.sorted
  · rw [placed.length_eq, List.length_cons, holds.count, List.length_append, List.length_singleton]
  · intro p hp
    rcases List.mem_append.mp hp with hp | hp
    · obtain ⟨c, hc, h⟩ := holds.each p hp
      exact ⟨c, placed.mem_iff.mpr (List.mem_cons_of_mem _ hc), h⟩
    · rw [List.mem_singleton.mp hp]
      exact ⟨_, placed.mem_iff.mpr List.mem_cons_self, command⟩
  · intro c hc
    rcases List.mem_cons.mp (placed.mem_iff.mp hc) with rfl | hc
    · exact ⟨path, List.mem_append_right _ (List.mem_singleton_self _), command⟩
    · obtain ⟨p, hp, h⟩ := holds.source c hc
      exact ⟨p, List.mem_append_left _ hp, h⟩

end Commands

/-! ## Loading one document after the other -/

theorem loadAll_nil : loadAll fs set [] = .ok set := rfl

theorem loadAll_cons (named : commandName? path = some name) : loadAll fs set (path :: paths) =
    if set.contains name then .error (.duplicate name)
    else
      match Document.loadSchema fs path with
      | .ok schema => loadAll fs (set.insert name schema) paths
      | .error e => .error (.load e) := by
  conv => lhs; unfold loadAll
  rewrite [named]
  rfl

/-- A document without a command name is left out. -/
theorem loadAll_unnamed (unnamed : commandName? path = none) :
    loadAll fs set (path :: paths) = loadAll fs set paths := by
  conv => lhs; unfold loadAll
  rewrite [unnamed]
  rfl

/-- Only the documents with a command name count. -/
theorem loadAll_named (fs : FileSystem) (set : CommandSet) (paths : List RawText) :
    loadAll fs set paths = loadAll fs set (paths.filter fun path => (commandName? path).isSome) := by
  induction paths generalizing set with
  | nil => rfl
  | cons path rest ih =>
      cases named : commandName? path with
      | none =>
          rw [loadAll_unnamed named, ih, List.filter_cons_of_neg (by simp [named])]
      | some name =>
          rw [List.filter_cons_of_pos (by simp [named]), loadAll_cons named, loadAll_cons named]
          simp only [ih]

/-- Documents are all loaded exactly if their stems differ, also from those before, and each
is a schema. -/
theorem loadAll_ok_iff (holds : set.Commands fs before)
    (documents : ∀ path ∈ paths, ∃ stem : String, DocumentName path stem) :
    (∃ set', loadAll fs set paths = .ok set') ↔
      (before ++ paths).Pairwise Apart ∧ ∀ path ∈ paths, ∃ s, Document.loadSchema fs path = .ok s := by
  induction paths generalizing set before with
  | nil => simpa [loadAll_nil] using holds.apart
  | cons path rest ih =>
      obtain ⟨⟨name, stem⟩, documents⟩ := List.forall_mem_cons.mp documents
      rw [loadAll_cons stem.named, List.forall_mem_cons]
      cases taken : set.contains name with
      | true =>
          -- a document before has the stem, so the two are not apart
          obtain ⟨other, hother, same⟩ := holds.contains_iff.mp taken
          simp only [if_true, reduceCtorEq, exists_false, false_iff, not_and]
          intro apart
          have := (List.pairwise_append.mp apart).2.2 other hother path List.mem_cons_self
          exact absurd stem (this name same)
      | false =>
          have fresh := (holds.fresh_iff stem).mpr taken
          cases loads : Document.loadSchema fs path with
          | error e => simp
          | ok s => simpa using ih (holds.insert ⟨stem, loads⟩ fresh) documents

/-- What is loaded are the commands of the documents. -/
theorem loadAll_ok (holds : set.Commands fs before)
    (documents : ∀ path ∈ paths, ∃ stem : String, DocumentName path stem)
    (h : loadAll fs set paths = .ok set') :
    set'.Commands fs (before ++ paths) ∧ set'.origin = set.origin := by
  induction paths generalizing set before with
  | nil =>
      cases h
      rw [List.append_nil]
      exact ⟨holds, rfl⟩
  | cons path rest ih =>
      obtain ⟨⟨name, stem⟩, documents⟩ := List.forall_mem_cons.mp documents
      rw [loadAll_cons stem.named] at h
      split at h
      · cases h
      · next free =>
        have fresh := (holds.fresh_iff stem).mpr (Bool.not_eq_true _ ▸ free)
        split at h
        · next s loads =>
          have after := ih (holds.insert ⟨stem, loads⟩ fresh) documents h
          rwa [List.append_assoc] at after
        · cases h

/-- What is at fault with one document shows in the set of those before. -/
theorem documentFault_iff (holds : set.Commands fs before) (stem : DocumentName path name) :
    DocumentFault fs before path e ↔
      if set.contains name then e = .duplicate name
      else ∃ failure, Document.loadSchema fs path = .error failure ∧ e = .load failure := by
  constructor
  · rintro (⟨earlier, stem', same⟩ | ⟨fresh, h⟩)
    · obtain rfl := RawText.ofText_inj.mp (stem.unique stem')
      rw [if_pos (holds.contains_iff.mpr ⟨_, earlier, same⟩)]
    · rw [(holds.fresh_iff stem).mp fresh]
      exact ⟨_, h, rfl⟩
  · intro h
    split at h
    · next taken =>
      subst h
      obtain ⟨other, hother, same⟩ := holds.contains_iff.mp taken
      exact .repeated hother stem same
    · next free =>
      obtain ⟨failure, hfailure, rfl⟩ := h
      exact .unreadable ((holds.fresh_iff stem).mpr (Bool.not_eq_true _ ▸ free)) hfailure

/-- The load stops at the first document at fault. -/
theorem loadAll_error_iff (holds : set.Commands fs before)
    (documents : ∀ path ∈ paths, ∃ stem : String, DocumentName path stem) :
    loadAll fs set paths = .error e ↔
      FirstFault (fun earlier => DocumentFault fs (before ++ earlier)) paths e := by
  induction paths generalizing set before with
  | nil => simp [loadAll_nil, FirstFault]
  | cons path rest ih =>
      -- the fault of the first document shows in the set; without one it joins those before
      obtain ⟨⟨name, stem⟩, documents⟩ := List.forall_mem_cons.mp documents
      rw [loadAll_cons stem.named, firstFault_cons]
      simp only [List.append_nil, documentFault_iff holds stem]
      cases taken : set.contains name with
      | true => simp [eq_comm]
      | false =>
          have fresh := (holds.fresh_iff stem).mpr taken
          cases loads : Document.loadSchema fs path with
          | error failure => simp [eq_comm]
          | ok s => simpa using ih (holds.insert ⟨stem, loads⟩ fresh) documents

/-! ## A whole directory -/

theorem dispatch_ok_iff {rest : List String} {r : String × Schema × List String} :
    set.dispatch (name :: rest) = .ok r ↔ ∃ s, set.get? name = some s ∧ r = (name, s, rest) := by
  rw [dispatch]
  cases set.get? name with
  | none => simp
  | some s => simp [eq_comm]

theorem ofDirectory_eq {directory : RawText} {names : List RawText}
    (listing : fs.list directory = .ok names) :
    ofDirectory fs directory = loadAll fs { origin := directory }
      ((documentPaths fs directory names).filter fun path => (commandName? path).isSome) := by
  rw [ofDirectory, listing, ← loadAll_named]
  rfl

/-- **A directory of documents, exactly.** A directory whose entries have the given names gives
the same commands in whatever order they are listed. It gives them if its documents have
different stems and each is a schema: one command for each, by the order of names, to be
dispatched by its name. Else it fails as the first document at fault does. Its documents are
the files with the extension of a format whose stem is a text and whose path is not too long;
any other is left out. -/
theorem ofDirectory_complete {directory : RawText} {listed : List RawText}
    (listing : fs.list directory = .ok listed) :
    (∀ names, names.Perm listed → ofListing fs directory names = ofDirectory fs directory) ∧
    ∃ docs, fs.Documents directory listed docs ∧
      (∀ name : RawText, name.EntryName →
        (Files.join directory name ∈ docs ↔ fs.HasFile directory name ∧
          (∃ stem : String, name.NamesDocument stem) ∧
          (Files.join directory name).bytes.length < Route.maxPath)) ∧
      ((∃ set, ofDirectory fs directory = .ok set) ↔
        docs.Pairwise Apart ∧ ∀ path ∈ docs, ∃ s, Document.loadSchema fs path = .ok s) ∧
      (∀ set, ofDirectory fs directory = .ok set →
        set.origin = directory ∧ set.Commands fs docs ∧
        ∀ name rest r, set.dispatch (name :: rest) = .ok r ↔
          ∃ path ∈ docs, ∃ s, CommandOf fs path (name, s) ∧ r = (name, s, rest)) ∧
      ∀ e, ofDirectory fs directory = .error e ↔ FirstFault (DocumentFault fs) docs e := by
  have docs := documents_documentPaths fs directory listed
  have documents := fun path h => (docs.document path h).2
  have empty := commands_empty fs directory
  refine ⟨fun names h => ?_, _, docs, fun name => docs.mem_join_iff listing, ?_, fun set h => ?_,
    fun e => ?_⟩
  · rw [ofDirectory, listing, ofListing, documentPaths_perm h]
    rfl
  · rw [ofDirectory_eq listing]
    exact loadAll_ok_iff empty documents
  · rw [ofDirectory_eq listing] at h
    obtain ⟨holds, same⟩ := loadAll_ok empty documents h
    refine ⟨same, holds, fun name rest r => ?_⟩
    rw [dispatch_ok_iff]
    constructor
    · rintro ⟨s, hs, rfl⟩
      obtain ⟨path, hpath, command⟩ := holds.get?_iff.mp hs
      exact ⟨path, hpath, s, command, rfl⟩
    · rintro ⟨path, hpath, s, command, rfl⟩
      exact ⟨s, holds.get?_iff.mpr ⟨path, hpath, command⟩, rfl⟩
  · rw [ofDirectory_eq listing]
    exact loadAll_error_iff empty documents

/-- A directory with the documents of two commands, a directory named like a document and a
file of another kind. -/
def twoTools : FileSystem where
  entries := [(["w"], .directory 0o755), (["w", "c"], .directory 0o755),
    (["w", "c", "run.json"], .file (.text "\x7b\"properties\": \x7b\x7d\x7d")),
    (["w", "c", "old.json"], .directory 0o755),
    (["w", "c", "eval.YML"], .file (.text "properties: \x7b\x7d")),
    (["w", "c", "notes.txt"], .file (.text "later"))]
  here := ["w"]

/-- The schema without parameters. -/
def noParameters : Schema := ⟨none, none, .object {} [], ⟨[]⟩⟩

/-- A document that says no parameters is the schema without parameters. -/
theorem loadSchema_noParameters
    (content : Document.load fs path = .ok (.object [("properties", .object [])])) :
    Document.loadSchema fs path = .ok noParameters := by
  rw [Document.loadSchema, content]
  cbv

theorem ofListing_twoTools :
    ofListing twoTools "c" ["eval.YML", "notes.txt", "old.json", "run.json"] =
      .ok ⟨[("eval", noParameters), ("run", noParameters)], "c"⟩ := by
  have paths : documentPaths twoTools "c" ["eval.YML", "notes.txt", "old.json", "run.json"] =
      (["c/eval.YML", "c/run.json"] : List RawText) := by
    have ordered : List.Pairwise (fun a b : RawText => decide (a ≤ b))
        ["eval.YML", "notes.txt", "old.json", "run.json"] := by decide +kernel
    rw [documentPaths, List.mergeSort_of_pairwise ordered]
    decide +kernel
  have loads : ∀ path ∈ (["c/eval.YML", "c/run.json"] : List RawText),
      Document.loadSchema twoTools path = .ok noParameters := by
    have content : ∀ path ∈ (["c/eval.YML", "c/run.json"] : List RawText),
        Document.load twoTools path = .ok (.object [("properties", .object [])]) := by decide +kernel
    exact fun path h => loadSchema_noParameters (content path h)
  have eval : DocumentName "c/eval.YML" "eval" := documentName_iff.mpr (by decide +kernel)
  have run : DocumentName "c/run.json" "run" := documentName_iff.mpr (by decide +kernel)
  rw [ofListing, paths, loadAll_cons eval.named, loads _ (by decide), if_neg (by decide +kernel)]
  show loadAll _ _ (["c/run.json"] : List RawText) = _
  rw [loadAll_cons run.named, loads _ (by decide), if_neg (by decide +kernel)]
  rfl

theorem ofDirectory_complete_twoTools :
    ∃ docs, twoTools.Documents "c" ["run.json", "old.json", "eval.YML", "notes.txt"] docs ∧
      ∃ set, ofDirectory twoTools "c" = .ok set ∧ set.Commands twoTools docs ∧
        set.names = ["eval", "run"] := by
  have listing : twoTools.list "c" =
      .ok (["run.json", "old.json", "eval.YML", "notes.txt"] : List RawText) := by decide +kernel
  obtain ⟨same, docs, hdocs, -, -, loaded, -⟩ := ofDirectory_complete listing
  have run := (same ["eval.YML", "notes.txt", "old.json", "run.json"] (by decide)).symm.trans
    ofListing_twoTools
  exact ⟨docs, hdocs, _, run, (loaded _ run).2.1, rfl⟩

/-- A directory with one document, of the given name. -/
def oneTool (name : RawText) : FileSystem where
  entries := [(["w"], .directory 0o755), (["w", "c"], .directory 0o755),
    (["w", "c", name], .file (.text "properties: \x7b\x7d"))]
  here := ["w"]

/-- A stem that is no text, with the extension of a format. -/
def rawName : RawText := ⟨[0xff]⟩ ++ "." ++ "yaml"

/-- A stem of 200 letters, with the extension of a format. -/
def longName : RawText := RawText.ofText (String.ofList (List.replicate 200 'a')) ++ "." ++ "yaml"

/-- The path `c` after 1974 steps in place. -/
def longWay : String := String.ofList ((List.replicate 1974 ['.', '/']).flatten ++ ['c'])

/-- A document whose path is too long cannot be read. -/
theorem loadSchema_tooLong {stem : RawText} (named : DocumentName path stem)
    (noZero : 0 ∉ path.bytes) (long : Route.maxPath ≤ path.bytes.length) :
    Document.loadSchema fs path = .error (.file .nameTooLong) := by
  obtain ⟨format, hformat⟩ := Option.isSome_iff_exists.mp (documentName_iff.mp named).2
  have refused : Route.ofPath? path = .error .nameTooLong := by
    rw [Route.ofPath?, if_neg (by simpa using noZero), if_pos long]
  have unread : fs.readText path = .error .nameTooLong := by
    rw [FileSystem.readText, FileSystem.locate, refused]
  rw [Document.loadSchema, Document.load, hformat]
  simp only [unread]
  rfl

theorem ofText_longWay : (longWay : RawText) = Files.inPlace 1974 "c" := by
  have steps : ∀ n, (String.ofList ((List.replicate n ['.', '/']).flatten ++ ['c']) : RawText) =
      Files.inPlace n "c" := by
    intro n
    induction n with
    | zero => rfl
    | succ n ih =>
        rw [RawText.mk.injEq, Files.inPlace_succ, ← ih, bytes_ofText, bytes_ofText,
          String.toList_ofList, String.toList_ofList]
        rfl
  exact steps 1974

/-- **A document can be left out in silence.** In the first directory its stem is no text, so
the set has no command for a file that is a schema. In the second the path to it is too long, so
the file cannot be read, and yet the set is loaded. -/
theorem documents_left_out :
    ((oneTool rawName).HasFile "c" rawName ∧ rawName.NamesDocument ⟨[0xff]⟩ ∧
      Document.loadSchema (oneTool rawName) (Files.join "c" rawName) = .ok noParameters ∧
      ofDirectory (oneTool rawName) "c" = .ok { origin := "c" }) ∧
    (oneTool longName).HasFile longWay longName ∧
      longName.NamesDocument (String.ofList (List.replicate 200 'a')) ∧
      Document.loadSchema (oneTool longName) (Files.join longWay longName) =
        .error (.file .nameTooLong) ∧
      ofDirectory (oneTool longName) longWay = .ok { origin := longWay } := by
  constructor
  · have located : (oneTool rawName).locate "c" = .ok (["w", "c"], .directory 0o755) := by
      decide +kernel
    have listing : (oneTool rawName).list "c" = .ok [rawName] := by decide +kernel
    have unnamed : (documentPaths (oneTool rawName) "c" [rawName]).filter
        (fun path => (commandName? path).isSome) = [] := by
      rw [documentPaths, List.mergeSort_singleton]
      decide +kernel
    refine ⟨⟨_, _, .text "properties: \x7b\x7d", located, by decide +kernel⟩, ?_, ?_, ?_⟩
    · exact ⟨"yaml", rfl, by decide, by decide +kernel⟩
    · exact loadSchema_noParameters (by decide +kernel)
    · rw [ofDirectory_eq listing, unnamed]
      rfl
  · have located : (oneTool longName).locate longWay = .ok (["w", "c"], .directory 0o755) := by
      rw [ofText_longWay]
      exact FileSystem.locate_inPlace (by decide +kernel) (by decide +kernel) 1974
        (by decide +kernel) (by decide +kernel)
    have listing : (oneTool longName).list longWay = .ok [longName] := by
      rw [FileSystem.list, located]
      decide +kernel
    have proper : longName.EntryName := by
      constructor
      all_goals decide +kernel
    have named : longName.NamesDocument (String.ofList (List.replicate 200 'a')) :=
      ⟨"yaml", rfl, by decide +kernel, by decide +kernel⟩
    have long : Route.maxPath ≤ (Files.join longWay longName).bytes.length := by
      rw [ofText_longWay]
      decide +kernel
    have unseen : (oneTool longName).isFile (Files.join longWay longName) = false := by
      rw [← Bool.not_eq_true, FileSystem.isFile_join_iff listing proper, not_and, Nat.not_lt]
      exact fun _ => long
    refine ⟨⟨_, _, .text "properties: \x7b\x7d", located, by decide +kernel⟩, named, ?_, ?_⟩
    · have filled := FileSystem.filled_of_locate located
      refine loadSchema_tooLong ((documentName_join filled proper).mpr named) ?_ long
      rw [Files.zero_mem_join filled proper, ofText_longWay]
      decide +kernel
    · rw [ofDirectory_eq listing, documentPaths, List.mergeSort_singleton]
      simp [unseen, loadAll_nil]

end CommandSet

end ParamTree
