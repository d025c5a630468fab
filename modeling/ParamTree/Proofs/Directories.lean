import ParamTree.Proofs.Growth

/-!
# Directories that are made

An action that makes directories walks over the paths of its value and hands the value
back; the check for directories walks over the same paths. Since a file system only grows,
what the action has made at one path is still there when the last one is done, whatever
the paths are and however they overlap (`isDirectory_extends`). So the check passes after
the action (`makeDir_establishes`). The one exception is the empty path: it leads nowhere,
yet the request to make it is granted and makes nothing.
-/

namespace ParamTree

open FileM

/-! ## Paths of a value -/

/-- `v.Names path`: the path is the value, or that of an item at some depth. -/
inductive Value.Names : Value → String → Prop
  | path (path : String) : Names (.string path) path
  | item {items : List Value} {v : Value} {path : String} (hv : v ∈ items) (h : v.Names path) :
      Names (.array items) path

/-- Is the value a path or a sequence of such values? -/
inductive Value.NamesPaths : Value → Prop
  | path (path : String) : NamesPaths (.string path)
  | items {items : List Value} (h : ∀ v ∈ items, v.NamesPaths) : NamesPaths (.array items)

theorem Value.names_string {path p : String} : (Value.string path).Names p ↔ p = path := by
  constructor
  · rintro ⟨⟩
    rfl
  · rintro rfl
    exact .path p

theorem Value.names_array {items : List Value} {p : String} :
    (Value.array items).Names p ↔ ∃ v ∈ items, v.Names p := by
  constructor
  · rintro ⟨⟩
    next v hv h => exact ⟨v, hv, h⟩
  · rintro ⟨v, hv, h⟩
    exact .item hv h

namespace FileM

variable {ε : Type} {fs fs' : FileSystem} {notAPath : Value → ε} {f : String → FileM ε Unit}

/-- What each run on a path leaves behind stands for all paths of a value in the end, if
no later run takes it back. -/
theorem forEachPath_leaves {R : FileSystem → FileSystem → Prop} (hR : RunRelation R)
    (keeps : ∀ path, Keeps R (f path)) {Q : String → FileSystem → Prop}
    (leaves : ∀ path fs u fs', (f path).run fs = .ok u fs' → Q path fs')
    (stable : ∀ path fs fs', R fs fs' → Q path fs → Q path fs') :
    (∀ v fs u fs', (forEachPath notAPath f v).run fs = .ok u fs' →
        v.NamesPaths ∧ ∀ path, v.Names path → Q path fs') ∧
      ∀ vs fs u fs', (forEachPathIn notAPath f vs).run fs = .ok u fs' →
        ∀ v ∈ vs, v.NamesPaths ∧ ∀ path, v.Names path → Q path fs' := by
  apply forEachPath.mutual_induct
  case case1 =>
    intro path fs u fs' run
    rw [forEachPath] at run
    refine ⟨.path path, fun p hp => ?_⟩
    rw [Value.names_string.mp hp]
    exact leaves path fs u fs' run
  case case2 =>
    intro items ih fs u fs' run
    rw [forEachPath] at run
    have each := ih fs u fs' run
    refine ⟨.items fun v hv => (each v hv).1, fun p hp => ?_⟩
    obtain ⟨v, hv, hp⟩ := Value.names_array.mp hp
    exact (each v hv).2 p hp
  case case3 =>
    intro other hString hArray fs u fs' run
    rw [forEachPath.eq_3 _ _ _ hString hArray] at run
    exact absurd run run_throw_ok
  case case4 =>
    intro fs u fs' _ v hv
    cases hv
  case case5 =>
    intro first rest ihFirst ihRest fs u fs' run v hv
    rw [forEachPathIn] at run
    obtain ⟨a, fs₁, hfirst, hrest⟩ := run_bind_ok.mp run
    rcases List.mem_cons.mp hv with rfl | hv
    · obtain ⟨paths, done⟩ := ihFirst fs a fs₁ hfirst
      have grown : Keeps R (forEachPathIn notAPath f rest) := (keeps_forEachPath hR keeps).2 rest
      have later := grown fs₁ u fs' hrest
      exact ⟨paths, fun p hp => stable p fs₁ fs' later (done p hp)⟩
    · exact ihRest fs₁ u fs' hrest v hv

/-- Looking at every path of a value is looking at each. -/
theorem forEachPath_ok_iff (still : ∀ path, Keeps Eq (f path)) :
    (∀ v, (forEachPath notAPath f v).run fs = .ok () fs ↔
        v.NamesPaths ∧ ∀ path, v.Names path → (f path).run fs = .ok () fs) ∧
      ∀ vs, (forEachPathIn notAPath f vs).run fs = .ok () fs ↔
        ∀ v ∈ vs, v.NamesPaths ∧ ∀ path, v.Names path → (f path).run fs = .ok () fs := by
  apply forEachPath.mutual_induct
  case case1 =>
    intro path
    rw [forEachPath]
    constructor
    · intro run
      refine ⟨.path path, fun p hp => ?_⟩
      rw [Value.names_string.mp hp]
      exact run
    · rintro ⟨-, each⟩
      exact each path (.path path)
  case case2 =>
    intro items ih
    rw [forEachPath, ih]
    constructor
    · intro each
      refine ⟨.items fun v hv => (each v hv).1, fun p hp => ?_⟩
      obtain ⟨v, hv, hp⟩ := Value.names_array.mp hp
      exact (each v hv).2 p hp
    · rintro ⟨⟨⟩, each⟩ v hv
      next paths => exact ⟨paths v hv, fun p hp => each p (.item hv hp)⟩
  case case3 =>
    intro other hString hArray
    rw [forEachPath.eq_3 _ _ _ hString hArray]
    constructor
    · intro run
      exact absurd run run_throw_ok
    · rintro ⟨⟨⟩, -⟩
      · exact absurd rfl (hString _)
      · exact absurd rfl (hArray _)
  case case4 => simp [forEachPathIn]
  case case5 =>
    intro first rest ihFirst ihRest
    have stillFirst : Keeps Eq (forEachPath notAPath f first) :=
      (keeps_forEachPath RunRelation.eq still).1 first
    rw [forEachPathIn, stillFirst.run_bind_ok]
    simp only [ihFirst, ihRest, List.forall_mem_cons, exists_const]

end FileM

namespace FileSystem

variable {fs gs : FileSystem} {loc next : Location} {name : RawText} {names : List RawText}
  {r : Route} {path : RawText} {mode : Nat}

/-! ## What stands stays within reach -/

theorem hasDirectory_extends (h : fs.Extends gs) (there : fs.hasDirectory loc = true) :
    gs.hasDirectory loc = true := by
  unfold hasDirectory at there ⊢
  cases found : fs.find? loc with
  | none => simp [found] at there
  | some entry =>
      rw [found] at there
      rw [find?_extends h found]
      exact there

/-- One name leads on from a directory: nowhere, one up, or to the entry of that name. -/
theorem step_ok_iff : fs.step loc name = .ok next ↔
    fs.hasDirectory loc = true ∧
      (name = "." ∧ next = loc ∨
        name = ".." ∧ next = loc.dropLast ∨
        name ≠ "." ∧ name ≠ ".." ∧ name.bytes.length ≤ Route.maxName ∧
          next = loc ++ [name] ∧ ∃ entry, fs.find? (loc ++ [name]) = some entry) := by
  unfold step
  cases there : fs.hasDirectory loc with
  | false => simp
  | true =>
      by_cases hdot : name = "."
      · subst hdot
        simp [eq_comm]
      by_cases hdots : name = ".."
      · subst hdots
        simp [eq_comm]
      by_cases hlong : Route.maxName < name.bytes.length
      · simp [hdot, hdots, hlong, Nat.not_le.mpr hlong]
      cases found : fs.find? (loc ++ [name]) with
      | none => simp [hdot, hdots, hlong]
      | some entry => simpa [hdot, hdots, hlong, Nat.not_lt.mp hlong] using eq_comm

theorem step_extends (h : fs.Extends gs) (leads : fs.step loc name = .ok next) :
    gs.step loc name = .ok next := by
  rw [step_ok_iff] at leads ⊢
  obtain ⟨there, dot | dots | ⟨notDot, notDots, short, hnext, entry, found⟩⟩ := leads
  · exact ⟨hasDirectory_extends h there, .inl dot⟩
  · exact ⟨hasDirectory_extends h there, .inr (.inl dots)⟩
  · refine ⟨hasDirectory_extends h there, .inr (.inr ⟨notDot, notDots, short, hnext, entry, ?_⟩)⟩
    exact find?_extends h found

theorem walk_extends (h : fs.Extends gs) {out : Location} (leads : fs.walk loc names = .ok out) :
    gs.walk loc names = .ok out := by
  induction names generalizing loc with
  | nil => exact leads
  | cons name rest ih =>
      rw [walk] at leads ⊢
      cases first : fs.step loc name with
      | error failure =>
          rw [first] at leads
          cases leads
      | ok next =>
          rw [first] at leads
          rw [step_extends h first]
          exact ih leads

theorem follow_extends (h : fs.Extends gs) {found : Location × FileEntry}
    (leads : fs.follow r = .ok found) : gs.follow r = .ok found := by
  unfold follow at leads ⊢
  split at leads
  · cases leads
  · next nonempty =>
    rw [if_neg nonempty, show gs.start r = fs.start r by rw [start, start, h.1]]
    cases walked : fs.walk (fs.start r) r.names with
    | error failure =>
        rw [walked] at leads
        cases leads
    | ok loc =>
        rw [walked] at leads
        rw [walk_extends h walked]
        cases stands : fs.find? loc with
        | none => simp [stands] at leads
        | some entry =>
            simp only [stands] at leads
            simp only [find?_extends h stands]
            exact leads

theorem leadsToDirectory_extends (h : fs.Extends gs) (leads : fs.leadsToDirectory r = true) :
    gs.leadsToDirectory r = true := by
  unfold leadsToDirectory at leads ⊢
  cases found : fs.follow r with
  | error failure =>
      rw [found] at leads
      cases leads
  | ok entry =>
      rw [found] at leads
      rw [follow_extends h found]
      exact leads

theorem isDirectory_route (parsed : Route.ofPath? path = .ok r) :
    fs.isDirectory path = fs.leadsToDirectory r := by
  rw [isDirectory, leadsToDirectory, locate, parsed]

/-- A path that leads to a directory does so as the file system grows. -/
theorem isDirectory_extends (h : fs.Extends gs) (there : fs.isDirectory path = true) :
    gs.isDirectory path = true := by
  cases parsed : Route.ofPath? path with
  | error failure =>
      rw [isDirectory, locate, parsed] at there
      cases there
  | ok r =>
      rw [isDirectory_route parsed] at there ⊢
      exact leadsToDirectory_extends h there

/-! ## What is made is there -/

theorem makeDirectory_ok (made : fs.makeDirectory mode r = .ok gs) :
    ∃ (parent : Location) (name : RawText), r.names = r.names.dropLast ++ [name] ∧
      fs.walk (fs.start r) r.names.dropLast = .ok parent ∧ fs.hasDirectory parent = true ∧
      name ≠ "." ∧ name ≠ ".." ∧ name.bytes.length ≤ Route.maxName ∧
      fs.find? (parent ++ [name]) = none ∧
      gs = fs.add (parent ++ [name]) (.directory (directoryMode mode)) := by
  unfold makeDirectory at made
  split at made
  · cases made
  · next name hlast =>
    obtain ⟨above, hnames⟩ := List.getLast?_eq_some_iff.mp hlast
    split at made
    · cases made
    · next parent walked =>
      cases there : fs.hasDirectory parent with
      | false => simp [there] at made
      | true =>
          by_cases hdots : name = "." ∨ name = ".."
          · simp [there, hdots] at made
          by_cases hlong : Route.maxName < name.bytes.length
          · simp [there, hdots, hlong] at made
          cases free : fs.find? (parent ++ [name]) with
          | some entry => simp [there, hdots, hlong, free] at made
          | none =>
              obtain ⟨notDot, notDots⟩ := not_or.mp hdots
              have hgs : fs.add (parent ++ [name]) (.directory (directoryMode mode)) = gs := by
                simpa [there, hdots, hlong, free] using made
              exact ⟨parent, name, by rw [hnames, List.dropLast_concat], walked, there, notDot,
                notDots, Nat.not_lt.mp hlong, free, hgs.symm⟩

theorem walk_append_ok {more : List RawText} {out : Location} :
    fs.walk loc (names ++ more) = .ok out ↔
      ∃ mid, fs.walk loc names = .ok mid ∧ fs.walk mid more = .ok out := by
  induction names generalizing loc with
  | nil => simp [walk]
  | cons name rest ih =>
      rw [List.cons_append, walk, walk]
      cases fs.step loc name with
      | error failure => simp
      | ok next => exact ih

/-- The route to a directory that was made leads to it. -/
theorem leadsToDirectory_of_made (made : fs.makeDirectory mode r = .ok gs) :
    gs.leadsToDirectory r = true := by
  have grown := makeDirectory_extends made
  obtain ⟨parent, name, hnames, walked, there, notDot, notDots, short, free, rfl⟩ :=
    makeDirectory_ok made
  generalize hgs : fs.add (parent ++ [name]) (.directory (directoryMode mode)) = gs at grown
  have found : gs.find? (parent ++ [name]) = some (.directory (directoryMode mode)) := by
    rw [← hgs, find?_add _ free, if_pos rfl]
  have last : gs.step parent name = .ok (parent ++ [name]) :=
    step_ok_iff.mpr ⟨hasDirectory_extends grown there,
      .inr (.inr ⟨notDot, notDots, short, rfl, _, found⟩)⟩
  have reached : gs.walk (gs.start r) r.names = .ok (parent ++ [name]) := by
    rw [hnames, walk_append_ok, start, grown.1]
    refine ⟨parent, walk_extends grown walked, ?_⟩
    simp only [walk, last]
  have nonempty : r.isEmpty = false := by
    rw [Route.isEmpty, hnames]
    simp
  rw [leadsToDirectory, follow, nonempty, if_neg Bool.false_ne_true, reached]
  simp [found, FileEntry.isDirectory]

/-- A tree of directories is made up to the end of its route, unless the route is empty. -/
theorem makeTreeWithin_leads {fuel : Nat} (made : makeTreeWithin mode fuel fs r = (gs, none)) :
    r.isEmpty = true ∨ gs.leadsToDirectory r = true := by
  cases fuel with
  | zero => cases made
  | succ fuel =>
      unfold makeTreeWithin at made
      split at made
      · next empty => exact .inl empty
      · refine .inr ?_
        split at made
        · next hs first =>
          cases made
          exact leadsToDirectory_of_made first
        · split at made
          · cases made
          · split at made
            · cases made
            · split at made
              · next hs second =>
                cases made
                exact leadsToDirectory_of_made second
              · split at made
                · next there =>
                  cases made
                  exact there
                · cases made
        · split at made
          · next there =>
            cases made
            exact there
          · cases made

end FileSystem

/-! ## The empty path -/

namespace Files

/-- A piece that has been started is among the pieces. -/
theorem splitSlashes_started (word bs : List UInt8) (started : word ≠ []) :
    ∃ piece ∈ splitSlashes word bs, piece ≠ [] := by
  induction bs generalizing word with
  | nil => exact ⟨word, by simp [splitSlashes], started⟩
  | cons b bs ih =>
      rw [splitSlashes]
      split
      · exact ⟨word, List.mem_cons_self, started⟩
      · exact ih (word ++ [b]) (by simp)

/-- A path that starts with no slash has a name, unless it is empty. -/
theorem names_ne_nil {path : RawText} (relative : isAbsolute path = false) (h : path.bytes ≠ []) :
    names path ≠ [] := by
  obtain ⟨b, bs, split⟩ := List.exists_cons_of_ne_nil h
  have first : b ≠ slash := by
    rintro rfl
    simp [isAbsolute, split] at relative
  obtain ⟨piece, hpiece, nonempty⟩ := splitSlashes_started [b] bs (List.cons_ne_nil _ _)
  rw [names, split, splitSlashes, if_neg first]
  refine List.ne_nil_of_mem (List.mem_map_of_mem (List.mem_filter.mpr ⟨hpiece, ?_⟩))
  simpa using nonempty

end Files

/-- A route has what its path has. -/
theorem Route.ofPath?_ok {path : RawText} {r : Route} (parsed : ofPath? path = .ok r) :
    r = ⟨Files.isAbsolute path, Files.names path, Files.isSlashed path⟩ := by
  unfold ofPath? at parsed
  split at parsed
  · cases parsed
  · split at parsed
    · cases parsed
    · cases parsed
      rfl

/-- Only the empty path has the empty route. -/
theorem Route.isEmpty_iff {path : RawText} {r : Route} (parsed : ofPath? path = .ok r) :
    r.isEmpty = true ↔ path = "" := by
  rw [ofPath?_ok parsed, isEmpty, Bool.and_eq_true, Bool.not_eq_true', List.isEmpty_iff]
  constructor
  · rintro ⟨relative, hnames⟩
    have empty : path.bytes = [] := Decidable.of_not_not fun h => Files.names_ne_nil relative h hnames
    obtain ⟨bytes⟩ := path
    exact congrArg RawText.mk empty
  · rintro rfl
    exact ⟨rfl, rfl⟩

namespace FileSystem

theorem isDirectory_empty (fs : FileSystem) : fs.isDirectory "" = false := rfl

/-- A tree of directories is made up to the end of its path, unless the path is empty. -/
theorem makeTree_leads {fs gs : FileSystem} {mode : Nat} {path : RawText}
    (made : fs.makeTree mode path = (gs, none)) : path = "" ∨ gs.isDirectory path = true := by
  unfold makeTree at made
  split at made
  · cases made
  · next r parsed =>
    rw [isDirectory_route parsed, ← Route.isEmpty_iff parsed]
    exact makeTreeWithin_leads made

end FileSystem

/-! ## The action and the check -/

variable {fs fs' : FileSystem} {mode : Option Nat} {existOk : Bool} {v w : Value}

theorem makeDirAt_ok_iff {path : String} :
    (makeDirAt mode existOk path).run fs = .ok () fs' ↔
      fs.isDirectory path = true ∧ existOk = true ∧ fs' = fs ∨
        fs.isDirectory path = false ∧
          fs.makeTree (mode.getD FileSystem.defaultMode) path = (fs', none) := by
  have asked : ∀ (next : FileSystem → FileM ActionFault Unit),
      (get >>= next).run fs = (next fs).run fs := fun _ => rfl
  rw [makeDirAt, asked]
  cases fs.isDirectory path with
  | true =>
      cases existOk with
      | true => simp [eq_comm]
      | false => simp
  | false =>
      have stored : ∀ (next : PUnit → FileM ActionFault Unit) gs,
          (set gs >>= next).run fs = (next ⟨⟩).run gs := fun _ _ => rfl
      obtain ⟨gs, failure⟩ := fs.makeTree (mode.getD FileSystem.defaultMode) path
      simp only [Bool.false_eq_true, if_false, stored]
      cases failure with
      | none => simp [eq_comm]
      | some failure => simp

/-- After a directory is made its path leads to it, unless the path is empty. -/
theorem makeDirAt_leads {path : String} {u : Unit}
    (run : (makeDirAt mode existOk path).run fs = .ok u fs') :
    path = "" ∨ fs'.isDirectory path = true := by
  rcases makeDirAt_ok_iff.mp run with ⟨there, -, rfl⟩ | ⟨-, made⟩
  · exact .inr there
  · exact (FileSystem.makeTree_leads made).imp_left RawText.ofText_inj.mp

theorem runAt_dirExists_iff {path : String} :
    (Check.dirExists.runAt path).run fs = .ok () fs ↔ fs.isDirectory path = true := by
  cases there : fs.isDirectory path with
  | true =>
      simp only [iff_true]
      exact run_bind_ok.mpr ⟨fs, fs, rfl, by simp only [there, if_true]; rfl⟩
  | false =>
      simp only [Bool.false_eq_true, iff_false]
      intro run
      obtain ⟨seen, fs₁, hget, run⟩ := run_bind_ok.mp run
      cases hget
      simp only [there, Bool.false_eq_true, if_false] at run
      exact run_throw_ok run

/-- **Directories that are made are there.** An action that makes directories and succeeds
gives its value back and removes nothing. Every path that the value names then leads to a
directory, except for the empty one; so the check for directories passes on the value
exactly if it names no empty path. -/
theorem makeDir_establishes (run : ((Action.makeDir mode existOk).apply v).run fs = .ok w fs') :
    w = v ∧ fs.Extends fs' ∧ (∀ path, v.Names path → path = "" ∨ fs'.isDirectory path = true) ∧
      ((Check.dirExists.run v).run fs' = .ok () fs' ↔ ¬v.Names "") := by
  have grown := Action.keeps_apply _ _ _ _ _ run
  obtain ⟨u, fs₁, made, given⟩ := run_bind_ok.mp run
  obtain ⟨rfl, rfl⟩ := run_pure_ok.mp given
  have stable : ∀ path (fs fs' : FileSystem), fs.Extends fs' → (path = "" ∨ fs.isDirectory path = true) →
      path = "" ∨ fs'.isDirectory path = true :=
    fun path fs fs' h there => there.imp_right (FileSystem.isDirectory_extends h)
  obtain ⟨paths, there⟩ := (forEachPath_leaves FileSystem.extends_runRelation
    (keeps_makeDirAt mode existOk) (fun _ _ _ _ => makeDirAt_leads) stable).1 _ _ _ _ made
  refine ⟨rfl, grown, there, ?_⟩
  rw [Check.run, (forEachPath_ok_iff Check.dirExists.keeps_runAt).1]
  simp only [runAt_dirExists_iff]
  constructor
  · rintro ⟨-, each⟩ named
    have empty := each "" named
    rw [FileSystem.isDirectory_empty] at empty
    cases empty
  · intro unnamed
    refine ⟨paths, fun path named => (there path named).resolve_left ?_⟩
    rintro rfl
    exact unnamed named

/-- A file system with the given directories. -/
def withDirectories (locations : List Location) : FileSystem :=
  ⟨locations.map fun loc => (loc, .directory 0o755), []⟩

/-- Two paths of which the second leads through what is made for the first. -/
def runPaths : Value := .array [.string "runs/one/", .array [.string "runs/../two"]]

theorem makeDir_establishes_runs :
    let made := withDirectories [["runs"], ["runs", "one"], ["two"]]
    ((Action.makeDir none true).apply runPaths).run (withDirectories []) = .ok runPaths made ∧
      (withDirectories []).Extends made ∧
      (∀ path, runPaths.Names path → path = "" ∨ made.isDirectory path = true) ∧
      ((Check.dirExists.run runPaths).run made = .ok () made ↔ ¬runPaths.Names "") := by
  intro made
  have first : (makeDirAt none true "runs/one/").run (withDirectories []) =
      .ok () (withDirectories [["runs"], ["runs", "one"]]) :=
    makeDirAt_ok_iff.mpr (.inr ⟨by decide +kernel, by decide +kernel⟩)
  have second : (makeDirAt none true "runs/../two").run (withDirectories [["runs"], ["runs", "one"]]) =
      .ok () made :=
    makeDirAt_ok_iff.mpr (.inr ⟨by decide +kernel, by decide +kernel⟩)
  have run : ((Action.makeDir none true).apply runPaths).run (withDirectories []) =
      .ok runPaths made := by
    simp only [Action.apply, runPaths, forEachPath, forEachPathIn, EStateM.run_bind, first, second]
    rfl
  obtain ⟨-, established⟩ := makeDir_establishes run
  exact ⟨run, established⟩

/-- The empty path is granted and not made. -/
theorem empty_path_not_made :
    ((Action.makeDir none true).apply (.string "")).run (withDirectories []) =
        .ok (.string "") (withDirectories []) ∧
      (Check.dirExists.run (.string "")).run (withDirectories []) =
        .error (.dirMissing "") (withDirectories []) := by
  constructor
  · have made : (makeDirAt none true "").run (withDirectories []) = .ok () (withDirectories []) :=
      makeDirAt_ok_iff.mpr (.inr ⟨rfl, by decide +kernel⟩)
    simp only [Action.apply, forEachPath, EStateM.run_bind, made]
    rfl
  · rfl

end ParamTree
