import ParamTree.Proofs.Flags

/-!
# What a token list gives to a flag

`FlagTable.lastValues` says by the tokens alone what a flag gets: the values after
its last tag, up to the next tag of any flag. `read_get?` shows that reading the
tokens leaves exactly this under the flag's path.
-/

namespace ParamTree

namespace FlagTable

/-- The values after the last tag of a flag, up to the next tag of any flag; none
where no tag of the flag occurs. -/
def lastValues (t : FlagTable) (f : Flag) : List String → Option (List String)
  | [] => none
  | token :: rest =>
    match t.lastValues f rest with
    | some values => some values
    | none => if token ∈ f.tags then some (rest.takeWhile fun u => !t.isTag u) else none

end FlagTable

namespace FlagInput

/-! ## Runs of tags -/

/-- The values before the first tag are the tokens up to it. -/
theorem cut_fst (isTag : String → Bool) (tokens : List String) :
    (cut isTag tokens).1 = tokens.takeWhile fun u => !isTag u := by
  induction tokens with
  | nil => rfl
  | cons token rest ih =>
      rw [cut, List.takeWhile_cons]
      by_cases h : isTag token
      · simp [h]
      · simp [h, ih]

/-- The last run of a flag. -/
def lastRun (f : Flag) (runs : List TagRun) : Option TagRun :=
  runs.reverse.find? fun run => f.tags.contains run.tag

theorem lastRun_cons (f : Flag) (run : TagRun) (runs : List TagRun) :
    lastRun f (run :: runs) =
      (lastRun f runs).or (if run.tag ∈ f.tags then some run else none) := by
  simp only [lastRun, List.reverse_cons, List.find?_append]
  by_cases h : run.tag ∈ f.tags <;> simp [List.find?, h]

/-- The values of a flag are those of its last run. -/
theorem lastValues_eq {t : FlagTable} {f : Flag} (hf : f ∈ t.flags) (tokens : List String) :
    t.lastValues f tokens = (lastRun f (cut t.isTag tokens).2).map (·.values) := by
  induction tokens with
  | nil => rfl
  | cons token rest ih =>
      rw [FlagTable.lastValues, ih, cut]
      by_cases htag : t.isTag token
      · simp only [htag, if_true, lastRun_cons, cut_fst]
        cases lastRun f (cut t.isTag rest).2 with
        | some run => rfl
        | none => by_cases hmem : token ∈ f.tags <;> simp [hmem]
      · have hmem : token ∉ f.tags := fun hmem => htag (FlagTable.isTag_iff.mpr ⟨f, hf, hmem⟩)
        simp only [htag, Bool.false_eq_true, if_false, hmem]
        cases lastRun f (cut t.isTag rest).2 <;> rfl

theorem lookup_put (path p : List String) (given : Given)
    (entries : List (List String × Given)) :
    (put path given entries).lookup p = if p = path then some given else entries.lookup p := by
  induction entries with
  | nil => by_cases h : p = path <;> simp [put, h]
  | cons entry rest ih =>
      obtain ⟨q, g⟩ := entry
      by_cases hq : q = path
      · subst hq
        by_cases h : p = q
        · simp [put, h]
        · have hp : (p == q) = false := by simp [h]
          simp [put, List.lookup_cons, h, hp]
      · by_cases hp : p = q
        · subst hp
          simp [put, hq]
        · have hp' : (p == q) = false := by simp [hp]
          simp [put, hq, List.lookup_cons, hp', ih]

/-- Reading runs leaves under a flag's path what the flag's last run gives, or what
stood there before if it has none. -/
theorem readRuns_get? {t : FlagTable} (ht : t.Unambiguous) {input out : FlagInput}
    {runs : List TagRun} (h : readRuns t input runs = .ok out) {f : Flag} (hf : f ∈ t.flags) :
    match lastRun f runs with
    | some run => ∃ given, givenBy f run = .ok given ∧ out.get? f.path = some given
    | none => out.get? f.path = input.get? f.path := by
  induction runs generalizing input with
  | nil =>
      cases h
      rfl
  | cons run rest ih =>
      unfold readRuns at h
      split at h
      · cases h
      · next g hfind =>
        split at h
        · cases h
        · next given hgiven =>
          have ih := ih h
          obtain ⟨hg, htag⟩ := ht.find?_iff.mp hfind
          rw [lastRun_cons]
          cases hlast : lastRun f rest with
          | some later =>
              -- a later run of the flag takes the place of what this one gives
              rw [hlast] at ih
              exact ih
          | none =>
              rw [hlast] at ih
              simp only [get?, lookup_put] at ih ⊢
              by_cases hmem : run.tag ∈ f.tags
              · obtain rfl := ht.tag g hg f hf run.tag htag hmem
                simp only [hmem, if_true, Option.none_or]
                exact ⟨given, hgiven, by simpa using ih⟩
              · -- the run belongs to another flag, which has another path
                have hne : f.path ≠ g.path := fun hpath => hmem (ht.path f hf g hg hpath ▸ htag)
                simpa [hmem, hne] using ih

theorem mem_put {path : List String} {given : Given} {entries : List (List String × Given)}
    {entry : List String × Given} (h : entry ∈ put path given entries) :
    entry = (path, given) ∨ entry ∈ entries := by
  induction entries with
  | nil => exact .inl (List.mem_singleton.mp h)
  | cons first rest ih =>
      unfold put at h
      split at h
      · rcases List.mem_cons.mp h with rfl | h
        · exact .inl rfl
        · exact .inr (List.mem_cons_of_mem _ h)
      · rcases List.mem_cons.mp h with rfl | h
        · exact .inr List.mem_cons_self
        · rcases ih h with rfl | h
          · exact .inl rfl
          · exact .inr (List.mem_cons_of_mem _ h)

/-- Runs give values to flags of the table alone. -/
theorem readRuns_paths {t : FlagTable} {input out : FlagInput} {runs : List TagRun}
    (h : readRuns t input runs = .ok out)
    (before : ∀ entry ∈ input.entries, ∃ f ∈ t.flags, entry.1 = f.path) :
    ∀ entry ∈ out.entries, ∃ f ∈ t.flags, entry.1 = f.path := by
  induction runs generalizing input with
  | nil =>
      cases h
      exact before
  | cons run rest ih =>
      unfold readRuns at h
      split at h
      · cases h
      · next f hfind =>
        split at h
        · cases h
        · refine ih h fun entry hentry => ?_
          rcases mem_put hentry with rfl | hentry
          · exact ⟨f, List.mem_of_find?_eq_some hfind, rfl⟩
          · exact before entry hentry

theorem read_ok {t : FlagTable} {tokens : List String} {input : FlagInput}
    (h : read t tokens = .ok input) : readRuns t {} (cut t.isTag tokens).2 = .ok input := by
  unfold read at h
  split at h
  · next runs hcut =>
    rw [hcut]
    exact h
  · split at h <;> cases h

theorem read_paths {t : FlagTable} {tokens : List String} {input : FlagInput}
    (h : read t tokens = .ok input) : ∀ entry ∈ input.entries, ∃ f ∈ t.flags, entry.1 = f.path :=
  readRuns_paths (read_ok h) (by simp)

/-- Reading tokens leaves under a flag's path what the values of the flag give. -/
theorem read_get? {t : FlagTable} (ht : t.Unambiguous) {tokens : List String} {input : FlagInput}
    (h : read t tokens = .ok input) {f : Flag} (hf : f ∈ t.flags) :
    (t.lastValues f tokens = none ∧ input.get? f.path = none) ∨
      ∃ run given, t.lastValues f tokens = some run.values ∧ givenBy f run = .ok given ∧
        input.get? f.path = some given := by
  have hruns := readRuns_get? ht (read_ok h) hf
  rw [lastValues_eq hf]
  cases hlast : lastRun f (cut t.isTag tokens).2 with
  | none =>
      rw [hlast] at hruns
      exact .inl ⟨rfl, hruns⟩
  | some run =>
      rw [hlast] at hruns
      obtain ⟨given, hgiven, hget⟩ := hruns
      exact .inr ⟨run, given, rfl, hgiven, hget⟩

/-- A flag whose tags do not occur gets nothing. -/
theorem read_get?_absent {t : FlagTable} (ht : t.Unambiguous) {tokens : List String}
    {input : FlagInput} (h : read t tokens = .ok input) {f : Flag} (hf : f ∈ t.flags)
    (absent : t.lastValues f tokens = none) : input.get? f.path = none := by
  rcases read_get? ht h hf with ⟨-, hget⟩ | ⟨run, given, hlast, -⟩
  · exact hget
  · rw [absent] at hlast
    cases hlast

/-- A flag whose last tag has no values comes alone. -/
theorem read_get?_bare {t : FlagTable} (ht : t.Unambiguous) {tokens : List String}
    {input : FlagInput} (h : read t tokens = .ok input) {f : Flag} (hf : f ∈ t.flags)
    (bare : t.lastValues f tokens = some []) : input.get? f.path = some .bare := by
  rcases read_get? ht h hf with ⟨hlast, -⟩ | ⟨run, given, hlast, hgiven, hget⟩
  · rw [bare] at hlast
    cases hlast
  · rw [bare, Option.some.injEq] at hlast
    rw [givenBy, ← hlast] at hgiven
    cases hgiven
    exact hget

/-! ## Tables that agree on the tokens -/

section Agree

variable {t t' : FlagTable} {tokens : List String}

theorem cut_congr {isTag isTag' : String → Bool} (h : ∀ token ∈ tokens, isTag token = isTag' token) :
    cut isTag tokens = cut isTag' tokens := by
  induction tokens with
  | nil => rfl
  | cons token rest ih =>
      rw [cut, cut, ih fun u hu => h u (List.mem_cons_of_mem _ hu), h token List.mem_cons_self]

theorem readRuns_congr {runs : List TagRun} (h : ∀ run ∈ runs, t.find? run.tag = t'.find? run.tag)
    (input : FlagInput) : readRuns t input runs = readRuns t' input runs := by
  induction runs generalizing input with
  | nil => rfl
  | cons run rest ih =>
      rw [readRuns, readRuns, h run List.mem_cons_self]
      simp only [ih fun r hr => h r (List.mem_cons_of_mem _ hr)]

/-- Tables in which the tokens select the same flags read the tokens alike. -/
theorem read_congr (h : ∀ token ∈ tokens, t.find? token = t'.find? token) :
    read t tokens = read t' tokens := by
  have cuts : cut t.isTag tokens = cut t'.isTag tokens :=
    cut_congr fun token htoken => congrArg Option.isSome (h token htoken)
  have runs : ∀ run ∈ (cut t'.isTag tokens).2, t.find? run.tag = t'.find? run.tag := by
    intro run hrun
    refine h run.tag ?_
    rw [← cut_append t'.isTag tokens, List.mem_append, List.mem_flatMap]
    exact .inr ⟨run, hrun, List.mem_cons_self⟩
  unfold read
  rw [cuts]
  split
  · next same =>
    rw [same] at runs
    exact readRuns_congr runs {}
  · rfl

end Agree

end FlagInput

end ParamTree
