import ParamTree.Resolve.Error

/-!
# Command-line input

Tokens are cut into runs, each a tag with the values up to the next tag. A flag
that occurs several times keeps its last run, but every run must be one that its
flag can take.
-/

namespace ParamTree

/-- What the command line gives to one flag. -/
inductive Given where
  /-- The flag without a value. -/
  | bare
  /-- The value of a flag that takes one. -/
  | single (token : String)
  /-- The values of a flag that takes any number. -/
  | many (tokens : List String)
deriving DecidableEq, Repr

/-- What the command line gives, by parameter path. -/
structure FlagInput where
  entries : List (List String × Given) := []
deriving DecidableEq, Repr

/-- A tag and the values that follow it. -/
structure TagRun where
  tag : String
  values : List String
deriving DecidableEq, Repr

namespace FlagInput

/-- The entries with the value of one path set: in place where it is present, at
the end where it is new. -/
def put (path : List String) (given : Given) :
    List (List String × Given) → List (List String × Given)
  | [] => [(path, given)]
  | (p, g) :: rest => if p = path then (path, given) :: rest else (p, g) :: put path given rest

/-- The values before the first tag, and the runs from it on. -/
def cut (isTag : String → Bool) : List String → List String × List TagRun
  | [] => ([], [])
  | token :: rest =>
    let (values, runs) := cut isTag rest
    if isTag token then ([], ⟨token, values⟩ :: runs) else (token :: values, runs)

/-- The tokens of a run. -/
def tokensOf (run : TagRun) : List String := run.tag :: run.values

/-- Cutting loses no token. -/
theorem cut_append (isTag : String → Bool) (tokens : List String) :
    (cut isTag tokens).1 ++ (cut isTag tokens).2.flatMap tokensOf = tokens := by
  induction tokens with
  | nil => rfl
  | cons token rest ih =>
    unfold cut
    by_cases h : isTag token
    · simpa [h, tokensOf] using ih
    · simpa [h] using ih

/-- No value is a tag, before the first run or in one. -/
theorem cut_values (isTag : String → Bool) (tokens : List String) :
    (∀ v ∈ (cut isTag tokens).1, isTag v = false) ∧
      ∀ run ∈ (cut isTag tokens).2, isTag run.tag ∧ ∀ v ∈ run.values, isTag v = false := by
  induction tokens with
  | nil => simp [cut]
  | cons token rest ih =>
    obtain ⟨values, runs⟩ := ih
    unfold cut
    by_cases h : isTag token
    · simp only [h, if_true]
      refine ⟨by simp, ?_⟩
      intro run hrun
      rcases List.mem_cons.mp hrun with rfl | hrun
      · exact ⟨h, values⟩
      · exact runs run hrun
    · simp only [h, Bool.false_eq_true, if_false]
      refine ⟨?_, runs⟩
      intro v hv
      rcases List.mem_cons.mp hv with rfl | hv
      · simpa using h
      · exact values v hv

/-- What a run gives to its flag. Only a variadic flag takes several values. -/
def givenBy (flag : Flag) (run : TagRun) : Except ResolveError Given :=
  match run.values with
  | [] => .ok .bare
  | values =>
    if flag.variadic then .ok (.many values)
    else
      match values with
      | [single] => .ok (.single single)
      | _ => .error (.tooManyValues flag.paramPath run.tag values.length)

/-- Reads runs one by one on top of what was given before them. -/
def readRuns (flags : FlagTable) (input : FlagInput) : List TagRun → Except ResolveError FlagInput
  | [] => .ok input
  | run :: rest =>
    match flags.find? run.tag with
    | none => .error (.unknownFlag run.tag)
    | some flag =>
      match givenBy flag run with
      | .error e => .error e
      | .ok given => readRuns flags ⟨put flag.path given input.entries⟩ rest

/-- Reads tokens against the flags of a schema. The first token must be a tag. -/
def read (flags : FlagTable) (tokens : List String) : Except ResolveError FlagInput :=
  match cut flags.isTag tokens with
  | ([], runs) => readRuns flags {} runs
  | (token :: _, _) =>
    if token.toList.head? = some '-' then .error (.unknownFlag token)
    else .error (.unexpectedToken token)

/-- What is given to the parameter at a path. -/
def get? (input : FlagInput) (path : List String) : Option Given := input.entries.lookup path

end FlagInput

/-! ## Help requests -/

/-- The greatest help level that can be asked for. -/
def maxHelpRequest : Nat := twoTo 32 - 1

/-- The help level that a token spells: digits after an optional plus sign. -/
def helpLevelOf (token : String) : Option Nat :=
  let digits := match token.toList with
    | '+' :: rest => rest
    | cs => cs
  (natIn? 10 digits).bind fun n => if n ≤ maxHelpRequest then some n else none

/-- The help level that tokens ask for: that of the token after the first help
tag, zero where it spells none. -/
def findHelp : List String → Option Nat
  | [] => none
  | token :: rest =>
    if helpTags.contains token then some ((rest.head?.bind helpLevelOf).getD 0)
    else findHelp rest

end ParamTree
