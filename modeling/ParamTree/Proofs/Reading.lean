import ParamTree.Proofs.Tokens

/-!
# Reading accounts for every token

A token list that begins with a tag falls into runs, each a tag and the values up to
the next tag (`FlagTable.Segments`), in one way only (`segments_iff`). Reading succeeds
exactly if no run is too long for its flag; then every flag whose tags occur gets what
its last run gives, and no other path gets anything (`FlagTable.ReadsAs`). Otherwise
the first token that is no tag, or the first run that is too long, is the error
(`FlagTable.Refusal`). `read_accounts` states the three together.
-/

namespace ParamTree

open FlagInput

namespace FlagTable

variable {t : FlagTable} {f : Flag} {run : TagRun} {runs : List TagRun} {tokens : List String}
  {given : Given}

/-! ## What the tokens say -/

/-- Is the token a tag of some flag? -/
def Owned (t : FlagTable) (token : String) : Prop := ∃ f ∈ t.flags, token ∈ f.tags

/-- The tokens are the runs, one after another, and a tag stands at the start of each
run and nowhere else. -/
structure Segments (t : FlagTable) (tokens : List String) (runs : List TagRun) : Prop where
  join : runs.flatMap tokensOf = tokens
  tag : ∀ run ∈ runs, t.Owned run.tag
  value : ∀ run ∈ runs, ∀ v ∈ run.values, ¬t.Owned v

/-- Does the run give several values to the flag `f`, which takes one? -/
def Oversize (t : FlagTable) (f : Flag) (run : TagRun) : Prop :=
  f ∈ t.flags ∧ run.tag ∈ f.tags ∧ f.variadic = false ∧ 1 < run.values.length

/-- What the values of a run give to a flag. -/
inductive Gives (f : Flag) : List String → Given → Prop
  | bare : Gives f [] .bare
  | many {values} (some : values ≠ []) (variadic : f.variadic = true) : Gives f values (.many values)
  | single {value} (variadic : f.variadic = false) : Gives f [value] (.single value)

/-- Is `run` the last among the runs that selects the flag, under any of its tags? -/
def LastFor (f : Flag) (runs : List TagRun) (run : TagRun) : Prop :=
  ∃ before after, runs = before ++ run :: after ∧ run.tag ∈ f.tags ∧
    ∀ later ∈ after, later.tag ∉ f.tags

/-- The input gives to each flag what its last run gives, and holds nothing else. -/
structure ReadsAs (t : FlagTable) (tokens : List String) (runs : List TagRun) (input : FlagInput) :
    Prop where
  distinct : (input.entries.map Prod.fst).Nodup
  present : ∀ path, (∃ given, input.get? path = some given) ↔
    ∃ f ∈ t.flags, f.path = path ∧ ∃ tag ∈ f.tags, tag ∈ tokens
  given : ∀ path given, input.get? path = some given ↔
    ∃ f ∈ t.flags, f.path = path ∧ ∃ run, LastFor f runs run ∧ Gives f run.values given

/-- The failures of reading. A first token that is no tag goes before a run that is too
long, and of such runs the first counts. -/
inductive Refusal (t : FlagTable) (tokens : List String) : ResolveError → Prop
  | unknownFlag {token rest} (first : tokens = token :: rest) (unowned : ¬t.Owned token)
      (dashed : ∃ cs, token.toList = '-' :: cs) : Refusal t tokens (.unknownFlag token)
  | unexpectedToken {token rest} (first : tokens = token :: rest) (unowned : ¬t.Owned token)
      (plain : ¬∃ cs, token.toList = '-' :: cs) : Refusal t tokens (.unexpectedToken token)
  | tooManyValues {before run after f} (segments : t.Segments tokens (before ++ run :: after))
      (first : ∀ earlier ∈ before, ∀ g, ¬t.Oversize g earlier) (oversize : t.Oversize f run) :
      Refusal t tokens (.tooManyValues f.paramPath run.tag run.values.length)

/-! ## Segments and the cut -/

theorem owned_iff {token : String} : t.Owned token ↔ t.isTag token = true := isTag_iff.symm

theorem not_owned_iff {token : String} : ¬t.Owned token ↔ t.isTag token = false := by
  rw [owned_iff, Bool.not_eq_true]

theorem cut_tag {isTag : String → Bool} {tag : String} (h : isTag tag = true) (rest : List String) :
    cut isTag (tag :: rest) = ([], ⟨tag, (cut isTag rest).1⟩ :: (cut isTag rest).2) := by
  rw [cut]
  exact if_pos h

/-- Values in front of a list stay together when it is cut. -/
theorem cut_values_append {isTag : String → Bool} {values : List String}
    (h : ∀ v ∈ values, isTag v = false) (rest : List String) :
    cut isTag (values ++ rest) = (values ++ (cut isTag rest).1, (cut isTag rest).2) := by
  induction values with
  | nil => rfl
  | cons v values ih =>
      have hv : isTag v = false := h v List.mem_cons_self
      rw [List.cons_append, cut, ih fun u hu => h u (List.mem_cons_of_mem _ hu)]
      simp [hv]

/-- The segments of a token list are its cut, if that leaves nothing before them. -/
theorem segments_iff : t.Segments tokens runs ↔ cut t.isTag tokens = ([], runs) := by
  constructor
  · intro h
    -- along the runs: the tag of a run ends the values of the run before
    induction runs generalizing tokens with
    | nil =>
        obtain rfl : tokens = [] := h.join.symm
        rfl
    | cons run rest ih =>
        have below : cut t.isTag (rest.flatMap tokensOf) = ([], rest) :=
          ih ⟨rfl, fun r hr => h.tag r (List.mem_cons_of_mem _ hr),
            fun r hr => h.value r (List.mem_cons_of_mem _ hr)⟩
        have values : ∀ v ∈ run.values, t.isTag v = false :=
          fun v hv => not_owned_iff.mp (h.value run List.mem_cons_self v hv)
        have tag : t.isTag run.tag = true := owned_iff.mp (h.tag run List.mem_cons_self)
        rw [← h.join, List.flatMap_cons, tokensOf, List.cons_append, cut_tag tag,
          cut_values_append values, below, List.append_nil]
  · intro h
    have join := cut_append t.isTag tokens
    obtain ⟨-, parts⟩ := cut_values t.isTag tokens
    rw [h] at join parts
    exact ⟨join, fun run hrun => owned_iff.mpr (parts run hrun).1,
      fun run hrun v hv => not_owned_iff.mpr ((parts run hrun).2 v hv)⟩

theorem exists_segments (h : ∀ token rest, tokens = token :: rest → t.Owned token) :
    ∃ runs, t.Segments tokens runs := by
  cases tokens with
  | nil => exact ⟨[], rfl, by simp, by simp⟩
  | cons token rest =>
      have tag : t.isTag token = true := owned_iff.mp (h token rest rfl)
      exact ⟨_, segments_iff.mpr (cut_tag tag rest)⟩

theorem Segments.owned_first {token : String} (h : t.Segments (token :: tokens) runs) :
    t.Owned token := by
  cases runs with
  | nil => cases h.join
  | cons run rest =>
      obtain rfl : run.tag = token := (List.cons.inj h.join).1
      exact h.tag run List.mem_cons_self

/-- A tag of a flag occurs among the tokens exactly if it starts a segment. -/
theorem Segments.tag_mem_iff (h : t.Segments tokens runs) {tag : String} (owned : t.Owned tag) :
    tag ∈ tokens ↔ ∃ run ∈ runs, run.tag = tag := by
  rw [← h.join, List.mem_flatMap]
  constructor
  · rintro ⟨run, hrun, hmem⟩
    rcases List.mem_cons.mp hmem with rfl | hvalue
    · exact ⟨run, hrun, rfl⟩
    · exact absurd owned (h.value run hrun tag hvalue)
  · rintro ⟨run, hrun, rfl⟩
    exact ⟨run, hrun, List.mem_cons_self⟩

/-! ## Runs -/

theorem givenBy_ok_iff : givenBy f run = .ok given ↔ Gives f run.values given := by
  unfold givenBy
  constructor
  · intro h
    split at h
    · next hvalues =>
      cases h
      exact hvalues ▸ .bare
    · next hne =>
      split at h
      · next variadic =>
        cases h
        exact .many hne variadic
      · next variadic =>
        split at h
        · next value hvalues =>
          cases h
          exact hvalues ▸ .single (by simpa using variadic)
        · cases h
  · intro h
    generalize run.values = values at h
    cases h with
    | bare => rfl
    | many some variadic =>
        split
        · next hnil => exact absurd rfl some
        · rw [if_pos variadic]
    | single variadic => simp [variadic]

theorem givenBy_oversize (h : t.Oversize f run) :
    givenBy f run = .error (.tooManyValues f.paramPath run.tag run.values.length) := by
  obtain ⟨-, -, variadic, long⟩ := h
  unfold givenBy
  split
  · next hvalues => simp [hvalues] at long
  · rw [if_neg (by simp [variadic])]
    split
    · next value hvalues => simp [hvalues] at long
    · rfl

theorem exists_gives (hf : f ∈ t.flags) (tag : run.tag ∈ f.tags) (h : ¬t.Oversize f run) :
    ∃ given, Gives f run.values given := by
  generalize hvalues : run.values = values
  match hvar : f.variadic, values with
  | _, [] => exact ⟨_, .bare⟩
  | true, value :: more => exact ⟨_, .many (List.cons_ne_nil _ _) hvar⟩
  | false, [value] => exact ⟨_, .single hvar⟩
  | false, value :: other :: more => exact absurd ⟨hf, tag, hvar, by simp [hvalues]⟩ h

theorem readRuns_cons (ht : t.Unambiguous) (tag : t.Owned run.tag) (h : ∀ f, ¬t.Oversize f run)
    (input : FlagInput) (rest : List TagRun) :
    ∃ next, readRuns t input (run :: rest) = readRuns t next rest := by
  obtain ⟨f, hf, htag⟩ := tag
  obtain ⟨given, hgives⟩ := exists_gives hf htag (h f)
  refine ⟨⟨put f.path given input.entries⟩, ?_⟩
  simp only [readRuns, ht.find?_iff.mpr ⟨hf, htag⟩, givenBy_ok_iff.mpr hgives]

theorem readRuns_isOk (ht : t.Unambiguous) (tag : ∀ run ∈ runs, t.Owned run.tag)
    (h : ∀ run ∈ runs, ∀ f, ¬t.Oversize f run) (input : FlagInput) :
    ∃ out, readRuns t input runs = .ok out := by
  induction runs generalizing input with
  | nil => exact ⟨input, rfl⟩
  | cons run rest ih =>
      obtain ⟨next, hnext⟩ :=
        readRuns_cons ht (tag run List.mem_cons_self) (h run List.mem_cons_self) input rest
      rw [hnext]
      exact ih (fun r hr => tag r (List.mem_cons_of_mem _ hr))
        (fun r hr => h r (List.mem_cons_of_mem _ hr)) next

/-- Reading stops at the first run that is too long. -/
theorem readRuns_oversize (ht : t.Unambiguous) {before after : List TagRun}
    (tag : ∀ run ∈ before, t.Owned run.tag) (first : ∀ earlier ∈ before, ∀ g, ¬t.Oversize g earlier)
    (oversize : t.Oversize f run) (input : FlagInput) :
    readRuns t input (before ++ run :: after) =
      .error (.tooManyValues f.paramPath run.tag run.values.length) := by
  induction before generalizing input with
  | nil =>
      have hfind := ht.find?_iff.mpr ⟨oversize.1, oversize.2.1⟩
      simp only [List.nil_append, readRuns, hfind, givenBy_oversize oversize]
  | cons earlier rest ih =>
      obtain ⟨next, hnext⟩ := readRuns_cons ht (tag earlier List.mem_cons_self)
        (first earlier List.mem_cons_self) input (rest ++ run :: after)
      rw [List.cons_append, hnext]
      exact ih (fun r hr => tag r (List.mem_cons_of_mem _ hr))
        (fun r hr => first r (List.mem_cons_of_mem _ hr)) next

/-- Some run is too long, and then there is a first one; or none is. -/
theorem first_oversize (t : FlagTable) (runs : List TagRun) :
    (∀ run ∈ runs, ∀ f, ¬t.Oversize f run) ∨
      ∃ before run after f, runs = before ++ run :: after ∧
        (∀ earlier ∈ before, ∀ g, ¬t.Oversize g earlier) ∧ t.Oversize f run := by
  induction runs with
  | nil => exact .inl (by simp)
  | cons run rest ih =>
      by_cases h : ∃ f, t.Oversize f run
      · obtain ⟨f, hf⟩ := h
        exact .inr ⟨[], run, rest, f, rfl, by simp, hf⟩
      · have good : ∀ f, ¬t.Oversize f run := fun f hf => h ⟨f, hf⟩
        rcases ih with none | ⟨before, long, after, f, rfl, first, hf⟩
        · exact .inl (List.forall_mem_cons.mpr ⟨good, none⟩)
        · exact .inr ⟨run :: before, long, after, f, rfl, List.forall_mem_cons.mpr ⟨good, first⟩, hf⟩

theorem lastFor_iff : LastFor f runs run ↔ lastRun f runs = some run := by
  unfold LastFor lastRun
  rw [List.find?_eq_some_iff_append]
  constructor
  · rintro ⟨before, after, rfl, tag, later⟩
    refine ⟨by simpa using tag, after.reverse, before.reverse, by simp, ?_⟩
    intro r hr
    simpa using later r (by simpa using hr)
  · rintro ⟨tag, after, before, hrev, later⟩
    refine ⟨before.reverse, after.reverse, ?_, by simpa using tag, ?_⟩
    · rw [← List.reverse_reverse runs, hrev]
      simp
    · intro r hr
      simpa using later r (by simpa using hr)

/-! ## What is read -/

theorem nodup_put {path : List String} {entries : List (List String × Given)}
    (h : (entries.map Prod.fst).Nodup) : ((put path given entries).map Prod.fst).Nodup := by
  induction entries with
  | nil => simp [put]
  | cons entry rest ih =>
      obtain ⟨p, g⟩ := entry
      obtain ⟨hnew, hrest⟩ := List.nodup_cons.mp h
      by_cases hp : p = path
      · subst hp
        rw [put, if_pos rfl]
        exact h
      · rw [put, if_neg hp]
        refine List.nodup_cons.mpr ⟨fun hmem => ?_, ih hrest⟩
        obtain ⟨other, hother, heq⟩ := List.mem_map.mp hmem
        rcases mem_put hother with rfl | hother
        · exact hp heq.symm
        · exact hnew (heq ▸ List.mem_map_of_mem hother)

theorem readRuns_distinct {input out : FlagInput} (h : readRuns t input runs = .ok out)
    (distinct : (input.entries.map Prod.fst).Nodup) : (out.entries.map Prod.fst).Nodup := by
  induction runs generalizing input with
  | nil =>
      cases h
      exact distinct
  | cons run rest ih =>
      unfold readRuns at h
      split at h
      · cases h
      · split at h
        · cases h
        · exact ih h (nodup_put distinct)

theorem readsAs_of_readRuns (ht : t.Unambiguous) (segments : t.Segments tokens runs)
    {out : FlagInput} (h : readRuns t {} runs = .ok out) : t.ReadsAs tokens runs out := by
  have given : ∀ path given, out.get? path = some given ↔
      ∃ f ∈ t.flags, f.path = path ∧ ∃ run, LastFor f runs run ∧ Gives f run.values given := by
    intro path given
    constructor
    · intro hget
      -- only paths of flags are set, so the entry is the one of a flag
      obtain ⟨f, hf, rfl⟩ : ∃ f ∈ t.flags, path = f.path :=
        readRuns_paths h (by simp) _ (mem_of_lookup hget)
      have hruns := readRuns_get? ht h hf
      refine ⟨f, hf, rfl, ?_⟩
      cases hlast : lastRun f runs with
      | none =>
          rw [hlast, hget] at hruns
          cases hruns
      | some run =>
          rw [hlast] at hruns
          obtain ⟨given', hgiven, hget'⟩ := hruns
          obtain rfl : given' = given := Option.some.inj (hget'.symm.trans hget)
          exact ⟨run, lastFor_iff.mpr hlast, givenBy_ok_iff.mp hgiven⟩
    · rintro ⟨f, hf, rfl, run, hlast, hgives⟩
      have hruns := readRuns_get? ht h hf
      rw [lastFor_iff.mp hlast] at hruns
      obtain ⟨given', hgiven, hget⟩ := hruns
      rw [givenBy_ok_iff.mpr hgives] at hgiven
      cases hgiven
      exact hget
  refine ⟨readRuns_distinct h List.nodup_nil, fun path => ?_, given⟩
  constructor
  · rintro ⟨g, hget⟩
    obtain ⟨f, hf, hpath, run, ⟨before, after, rfl, tag, -⟩, -⟩ := (given path g).mp hget
    have starts : ∃ r ∈ before ++ run :: after, r.tag = run.tag := ⟨run, by simp, rfl⟩
    exact ⟨f, hf, hpath, run.tag, tag, (segments.tag_mem_iff ⟨f, hf, tag⟩).mpr starts⟩
  · rintro ⟨f, hf, rfl, tag, htag, hmem⟩
    obtain ⟨run, hrun, rfl⟩ := (segments.tag_mem_iff ⟨f, hf, htag⟩).mp hmem
    have hruns := readRuns_get? ht h hf
    cases hlast : lastRun f runs with
    | none =>
        -- a run with a tag of the flag is there, so one is the last
        have hnone := List.find?_eq_none.mp hlast run (by simpa using hrun)
        simp [htag] at hnone
    | some last =>
        rw [hlast] at hruns
        obtain ⟨g, -, hget⟩ := hruns
        exact ⟨g, hget⟩

theorem read_segments (h : t.Segments tokens runs) : read t tokens = readRuns t {} runs := by
  simp only [FlagInput.read, segments_iff.mp h]

theorem read_unowned {token : String} (h : ¬t.Owned token) (rest : List String) :
    read t (token :: rest) =
      if token.toList.head? = some '-' then .error (.unknownFlag token)
      else .error (.unexpectedToken token) := by
  have tag : ¬t.isTag token = true := fun htag => h (owned_iff.mpr htag)
  have first : cut t.isTag (token :: rest) =
      (token :: (cut t.isTag rest).1, (cut t.isTag rest).2) := by
    rw [cut]
    exact if_neg tag
  simp only [FlagInput.read, first]

theorem dashed_iff {token : String} :
    token.toList.head? = some '-' ↔ ∃ cs, token.toList = '-' :: cs := by
  cases token.toList <;> simp

/-- Reading succeeds, or it fails with one of the refusals. -/
theorem read_outcome (ht : t.Unambiguous) (tokens : List String) :
    (∃ runs input, t.Segments tokens runs ∧ (∀ run ∈ runs, ∀ f, ¬t.Oversize f run) ∧
        read t tokens = .ok input) ∨
      ∃ e, Refusal t tokens e ∧ read t tokens = .error e := by
  by_cases owned : ∀ token rest, tokens = token :: rest → t.Owned token
  · -- nothing stands before the first tag, so the runs decide
    obtain ⟨runs, segments⟩ := exists_segments owned
    rw [read_segments segments]
    rcases first_oversize t runs with none | ⟨before, run, after, f, rfl, first, oversize⟩
    · obtain ⟨out, hout⟩ := readRuns_isOk ht segments.tag none {}
      exact .inl ⟨runs, out, segments, none, hout⟩
    · refine .inr ⟨_, .tooManyValues segments first oversize, ?_⟩
      exact readRuns_oversize ht (fun r hr => segments.tag r (List.mem_append_left _ hr)) first oversize {}
  · push Not at owned
    obtain ⟨token, rest, rfl, unowned⟩ := owned
    rw [read_unowned unowned]
    by_cases dashed : token.toList.head? = some '-'
    · rw [if_pos dashed]
      exact .inr ⟨_, .unknownFlag rfl unowned (dashed_iff.mp dashed), rfl⟩
    · rw [if_neg dashed]
      exact .inr ⟨_, .unexpectedToken rfl unowned (fun h => dashed (dashed_iff.mpr h)), rfl⟩

theorem read_of_refusal (ht : t.Unambiguous) {e : ResolveError} (h : Refusal t tokens e) :
    read t tokens = .error e := by
  cases h with
  | unknownFlag first unowned dashed =>
      rw [first, read_unowned unowned, if_pos (dashed_iff.mpr dashed)]
  | unexpectedToken first unowned plain =>
      rw [first, read_unowned unowned, if_neg fun h => plain (dashed_iff.mp h)]
  | tooManyValues segments first oversize =>
      rw [read_segments segments]
      exact readRuns_oversize ht (fun r hr => segments.tag r (List.mem_append_left _ hr)) first oversize {}

end FlagTable

open FlagTable

/-- **Reading accounts for every token.** It succeeds exactly if there is no token, or
the first is a tag and no run is too long for its flag; what is read is what the last
run of each flag gives; and what is not read has a first reason. -/
theorem read_accounts {s : Schema} (built : s.Built) (tokens : List String) :
    ((∃ input, read s.flags tokens = .ok input) ↔
      tokens = [] ∨ (∃ first rest, tokens = first :: rest ∧ s.flags.Owned first) ∧
        ∃ runs, s.flags.Segments tokens runs ∧ ∀ run ∈ runs, ∀ f, ¬s.flags.Oversize f run) ∧
    (∀ input runs, read s.flags tokens = .ok input → s.flags.Segments tokens runs →
      s.flags.ReadsAs tokens runs input) ∧
    (∀ e, read s.flags tokens = .error e ↔ Refusal s.flags tokens e) ∧
    ∀ f ∈ s.flags.flags, f.paramPath.text = f.dottedPath := by
  have ht := built.unambiguous
  refine ⟨⟨?_, ?_⟩, ?_, fun e => ⟨?_, read_of_refusal ht⟩, ?_⟩
  · rintro ⟨input, hread⟩
    rcases read_outcome ht tokens with ⟨runs, -, segments, good, -⟩ | ⟨e, -, herror⟩
    · cases tokens with
      | nil => exact .inl rfl
      | cons first rest =>
          exact .inr ⟨⟨first, rest, rfl, segments.owned_first⟩, runs, segments, good⟩
    · rw [hread] at herror
      cases herror
  · rintro (rfl | ⟨-, runs, segments, good⟩)
    · exact ⟨{}, rfl⟩
    · rw [read_segments segments]
      exact readRuns_isOk ht segments.tag good {}
  · intro input runs hread segments
    rw [read_segments segments] at hread
    exact readsAs_of_readRuns ht segments hread
  · intro herror
    rcases read_outcome ht tokens with ⟨-, input, -, -, hread⟩ | ⟨e', refusal, herror'⟩
    · rw [hread] at herror
      cases herror
    · rw [herror'] at herror
      cases herror
      exact refusal
  · intro f hf
    obtain ⟨-, -, -, hne, -, -⟩ := built.flag_leaf hf
    exact ParamPath.text_ofKeys hne

open Schema in
/-- A flag that occurs twice keeps its later value, and a flag for one value with two is
refused under the tag that was typed. -/
theorem read_accounts_training :
    trainingSchema.Built ∧
      (∃ input, read trainingSchema.flags trainingTokens = .ok input ∧
        input.get? ["data", "mode"] = some (.single "slow") ∧ input.get? ["verbose"] = some .bare) ∧
      read trainingSchema.flags ["--verbose", "--mode", "fast", "slow"] =
        .error (.tooManyValues (.ofKeys ["data", "mode"]) "--mode" 2) := by
  have mode : trainingFlags.get ⟨1, by decide⟩ ∈ trainingFlags := List.get_mem _ _
  have verbose : trainingFlags.get ⟨3, by decide⟩ ∈ trainingFlags := List.get_mem _ _
  have segments : trainingSchema.flags.Segments trainingTokens
      [⟨"--mode", ["fast"]⟩, ⟨"--verbose", []⟩, ⟨"--mode", ["slow"]⟩] :=
    segments_iff.mpr (by decide +kernel)
  have long : trainingSchema.flags.Segments ["--verbose", "--mode", "fast", "slow"]
      ([⟨"--verbose", []⟩] ++ ⟨"--mode", ["fast", "slow"]⟩ :: []) :=
    segments_iff.mpr (by decide +kernel)
  obtain ⟨accepts, gives, -, -⟩ := read_accounts trainingSchema_built trainingTokens
  obtain ⟨-, -, refuses, -⟩ :=
    read_accounts trainingSchema_built ["--verbose", "--mode", "fast", "slow"]
  obtain ⟨input, hread⟩ := accepts.mpr (.inr ⟨⟨_, _, rfl, segments.owned_first⟩, _, segments, by
    simp [Oversize]⟩)
  have reads := gives input _ hread segments
  refine ⟨trainingSchema_built, ⟨input, hread, ?_, ?_⟩, ?_⟩
  · have last : LastFor (trainingFlags.get ⟨1, by decide⟩) _ ⟨"--mode", ["slow"]⟩ :=
      ⟨[⟨"--mode", ["fast"]⟩, ⟨"--verbose", []⟩], [], rfl, by decide, by simp⟩
    exact (reads.given _ _).mpr ⟨_, mode, rfl, _, last, .single rfl⟩
  · have last : LastFor (trainingFlags.get ⟨3, by decide⟩) _ ⟨"--verbose", []⟩ :=
      ⟨[⟨"--mode", ["fast"]⟩], [⟨"--mode", ["slow"]⟩], rfl, by decide, by decide⟩
    exact (reads.given _ _).mpr ⟨_, verbose, rfl, _, last, .bare⟩
  · refine (refuses _).mpr (.tooManyValues long ?_ ⟨mode, by decide, rfl, by decide⟩)
    simp [Oversize]

end ParamTree
