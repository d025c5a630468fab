import ParamTree.Proofs.Overlay
import ParamTree.Proofs.Scalars

/-!
# Config values as tokens

A literal is written as it would be typed (`renderLiteral`). For texts, integers and
booleans what is typed so is read as the literal again (`coerce_renderLiteral`), with one
exception: a config may hold integers that only an unsigned word holds, while a text is
read as a signed one (`coerce_renderLiteral_unsigned`). So a value of the config can be
moved to the command line exactly if it is no such integer (`Schema.resolve_typed`).
-/

namespace ParamTree

open FileM Resolve

/-! ## Integers that are written -/

/-- Digits are read as the number that they are. -/
theorem foldDigits?_eq {cs : List Char} (digits : ∀ c ∈ cs, c.isDigit) (acc : Nat) :
    foldDigits? 10 acc cs = some (Nat.ofDigitChars 10 cs acc) := by
  induction cs generalizing acc with
  | nil => rfl
  | cons c cs ih =>
      have digit : 48 ≤ c.toNat ∧ c.toNat ≤ 57 := by
        simpa [Char.isDigit, UInt32.le_iff_toNat_le] using digits c List.mem_cons_self
      have read : digitIn? 10 c = some (c.toNat - 48) := by
        have inside : ('0' ≤ c && c ≤ '9') = true := by
          simpa [Char.le_def, UInt32.le_iff_toNat_le] using digit
        have small : c.toNat - '0'.toNat < 10 := by
          show c.toNat - 48 < 10
          omega
        simp only [digitIn?, if_pos inside, if_pos small]
        rfl
      rw [foldDigits?, read, Option.bind_eq_bind, Option.bind_some,
        ih fun d hd => digits d (List.mem_cons_of_mem _ hd), Nat.ofDigitChars_cons,
        Nat.mul_comm acc]
      rfl

theorem natIn?_toDigits (n : Nat) : natIn? 10 (Nat.toDigits 10 n) = some n := by
  have written : (Nat.toDigits 10 n).isEmpty = false := by simp
  rw [natIn?, written, if_neg Bool.false_ne_true,
    foldDigits?_eq fun c hc => Nat.isDigit_of_mem_toDigits (by decide) (by decide) hc]
  simp

/-- An integer is written as its digits, after a minus sign if it is negative. -/
theorem toList_toString (i : Int) :
    (toString i).toList =
      if 0 ≤ i then Nat.toDigits 10 i.toNat else '-' :: Nat.toDigits 10 (-i).toNat := by
  rw [Int.toString_eq_repr, Int.repr_eq_if]
  split
  · rw [Nat.toList_repr]
  · rw [String.toList_append, Nat.toList_repr]
    rfl

/-- What starts with a digit has no sign. -/
theorem intIn?_toDigits (n : Nat) : intIn? 10 (Nat.toDigits 10 n) = some (n : Int) := by
  have digits : ∀ c ∈ Nat.toDigits 10 n, c.isDigit := fun c hc =>
    Nat.isDigit_of_mem_toDigits (by decide) (by decide) hc
  have read := natIn?_toDigits n
  unfold intIn?
  split
  · next cs hcs => exact absurd (digits '-' (by simp [hcs])) (by decide)
  · next cs hcs => exact absurd (digits '+' (by simp [hcs])) (by decide)
  · rw [read]
    rfl

/-- The text of an integer is read as the integer. -/
theorem intIn?_toString (i : Int) : intIn? 10 (toString i).toList = some i := by
  rw [toList_toString]
  split
  · next h => rw [intIn?_toDigits, Int.toNat_of_nonneg h]
  · next h =>
    have positive : 0 ≤ -i := by omega
    rw [intIn?, natIn?_toDigits]
    show some (-((-i).toNat : Int)) = some i
    rw [Int.toNat_of_nonneg positive, Int.neg_neg]

namespace Text

/-- A text without blanks is trimmed to itself. -/
theorem trim_of_blankFree {s : String} (h : ∀ c ∈ s.toList, isBlank c = false) : trim s = s := by
  have kept : ∀ cs : List Char, (∀ c ∈ cs, isBlank c = false) → cs.dropWhile isBlank = cs := by
    intro cs h
    cases cs with
    | nil => rfl
    | cons c cs => rw [List.dropWhile_cons, h c List.mem_cons_self, if_neg Bool.false_ne_true]
  rw [trim, dropTrailing, kept _ h, kept _ fun c hc => h c (List.mem_reverse.mp hc),
    List.reverse_reverse, String.ofList_toList]

theorem isBlank_of_isDigit {c : Char} (h : c.isDigit) : isBlank c = false := by
  have digit : 48 ≤ c.toNat ∧ c.toNat ≤ 57 := by
    simpa [Char.isDigit, UInt32.le_iff_toNat_le] using h
  simp only [isBlank, Bool.or_eq_false_iff, Bool.and_eq_false_iff, decide_eq_false_iff_not,
    beq_eq_false_iff_ne]
  omega

end Text

/-- The text of an integer is read as a literal if a signed word holds the integer. -/
theorem parseInteger_toString (i : Int) : parseInteger (toString i) = Integer64.ofSigned? i := by
  have digits : ∀ n, ∀ c ∈ Nat.toDigits 10 n, Text.isBlank c = false := fun n c hc =>
    Text.isBlank_of_isDigit (Nat.isDigit_of_mem_toDigits (by decide) (by decide) hc)
  have blankFree : ∀ c ∈ (toString i).toList, Text.isBlank c = false := by
    intro c hc
    rw [toList_toString] at hc
    split at hc
    · exact digits _ c hc
    · rcases List.mem_cons.mp hc with rfl | hc
      · rfl
      · exact digits _ c hc
  rw [parseInteger, Text.trim_of_blankFree blankFree, intIn?_toString]
  rfl

/-! ## Literals that are typed -/

/-- Does only an unsigned word hold the integer? -/
def Value.Unsigned (v : Value) : Prop :=
  ∃ n : Integer64, v = .number (.integer n) ∧ 0x8000000000000000 ≤ n.val

section Literals

variable {t : ScalarType} {v w : Value}

theorem coerce_renderLiteral_integer (n : Integer64) :
    ScalarType.integer.coerce (.string (renderLiteral (.number (.integer n)))) =
      (Integer64.ofSigned? n.val).map fun m => .number (.integer m) := by
  rw [ScalarType.coerce, ScalarType.ofText, renderLiteral, Json.compact, Number.text,
    parseInteger_toString]
  simp

/-- A scalar that is no number takes texts, and values of its type as they are. -/
theorem coerce_discrete (discrete : t ≠ .number) (taken : t.coerce v = some w) :
    (∃ s, v = .string s) ∨
      w = v ∧ ((∃ b, t = .boolean ∧ v = .bool b) ∨ ∃ n, t = .integer ∧ v = .number (.integer n)) := by
  by_cases text : ∃ s, v = .string s
  · exact .inl text
  · have other : ∀ s, v ≠ .string s := fun s hs => text ⟨s, hs⟩
    have taken : (Primitive.typed t).coerce v = some w := taken
    obtain rfl : w = v := coerce_of_not_text other taken
    have admitted : t.admits w = true := coerce_admits taken
    refine .inr ⟨rfl, ?_⟩
    unfold ScalarType.admits at admitted
    split at admitted
    · exact absurd rfl (other _)
    · exact .inr ⟨_, rfl, rfl⟩
    · exact absurd rfl discrete
    · exact .inl ⟨_, rfl, rfl⟩
    · cases admitted

/-- What is typed for a value of a scalar that is no number is read as the value, unless
the value is an integer that is too large. -/
theorem coerce_renderLiteral (discrete : t ≠ .number) (signed : ¬v.Unsigned)
    (taken : t.coerce v = some w) : t.coerce (.string (renderLiteral v)) = some w := by
  rcases coerce_discrete discrete taken with ⟨s, rfl⟩ | ⟨rfl, ⟨b, rfl, rfl⟩ | ⟨n, rfl, rfl⟩⟩
  · exact taken
  · cases b <;> cbv
  · have held : Integer64.ofSigned? n.val = some n := by
      have upper : ¬0x8000000000000000 ≤ n.val := fun h => signed ⟨n, rfl, h⟩
      rw [Integer64.ofSigned?, dif_pos ⟨n.lower, by omega⟩]
    rw [coerce_renderLiteral_integer, held, Option.map_some]

/-- What is typed for an integer that is too large is not read. -/
theorem coerce_renderLiteral_unsigned (discrete : t ≠ .number) (unsigned : v.Unsigned)
    (taken : t.coerce v = some w) :
    t = .integer ∧ t.coerce (.string (renderLiteral v)) = none := by
  obtain ⟨n, rfl, large⟩ := unsigned
  rcases coerce_discrete discrete taken with ⟨s, hs⟩ | ⟨-, ⟨b, -, hb⟩ | ⟨_, rfl, -⟩⟩
  · cases hs
  · cases hb
  · refine ⟨rfl, ?_⟩
    have unheld : Integer64.ofSigned? n.val = none := by
      rw [Integer64.ofSigned?, dif_neg (by omega)]
    rw [coerce_renderLiteral_integer, unheld, Option.map_none]

end Literals

/-! ## Tokens in place of an entry -/

/-- One flag gives something to its own path. -/
theorem FlagInput.get?_one (path names : List String) (given : Given) :
    get? ⟨[(path, given)]⟩ names = if names = path then some given else none :=
  lookup_put path names given []

/-- The tokens of one value are read as that value of the flag. -/
theorem FlagInput.read_single {table : FlagTable} (ht : table.Unambiguous) {f : Flag}
    (hf : f ∈ table.flags) (single : f.variadic = false) {text : String}
    (untagged : table.isTag text = false) :
    read table [f.longTag, text] = .ok ⟨[(f.path, .single text)]⟩ := by
  have found : table.find? f.longTag = some f := ht.find?_iff.mpr ⟨hf, List.mem_cons_self⟩
  have tagged : table.isTag f.longTag = true := by rw [FlagTable.isTag, found]; rfl
  have pieces : cut table.isTag [f.longTag, text] = ([], [⟨f.longTag, [text]⟩]) := by
    simp [cut, tagged, untagged]
  simp [read, pieces, readRuns, found, givenBy, single, put]

/-- `n.SameElsewhere path config rest`: filled from either config, the tree admits its
objects alike and finds the same entry for every leaf but the one at the path. -/
structure Node.SameElsewhere (n : Node) (path : List String) (config rest : Option Value) : Prop where
  objects : ∀ names m, n.descend names = some m → m.isObject → ∀ here,
    admission m.properties here (filling n config names) =
      admission m.properties here (filling n rest names)
  leaves : ∀ names key leaf, n.descend (names ++ [key]) = some leaf → leaf.isObject = false →
    names ++ [key] ≠ path → stored n config names key = stored n rest names key

/-- A value written at the path of a leaf changes nothing elsewhere. -/
theorem Node.sameElsewhere_writeAt {n leaf : Node} {path : List String}
    (hpath : n.descend path = some leaf) (hl : leaf.isObject = false) {rest : Option Value}
    (mappings : FilledByMappings n rest) (v : Value) :
    n.SameElsewhere path (some (n.writeAt v path rest)) rest where
  objects names m hd hm here := (writeAt_objects hd hm hpath hl (mappings names m hd hm) v here).2
  leaves names key other hd ho hne := by
    rw [stored_writeAt hd ho hpath hl, if_neg hne]

namespace Resolve

/-- Values that are read alike are resolved alike by a scalar. -/
theorem nodeValue_scalar_congr {a : Attributes} {type : Primitive} {choices : Option (List Value)}
    {v v' w : Value} (present : v.isNull = false) (present' : v'.isNull = false)
    (read : type.coerce v = some w) (read' : type.coerce v' = some w) (path : ParamPath) :
    nodeValue path (.scalar a type choices) { value := v } =
      nodeValue path (.scalar a type choices) { value := v' } := by
  have same : shapeScalar type choices path v = shapeScalar type choices path v' := by
    simp only [shapeScalar, read, read']
  unfold nodeValue
  simp only [shape_present present, shape_present present', shapeGiven, same]

/-- A scalar refuses what cannot be read as a value of its type. -/
theorem nodeValue_scalar_refused {a : Attributes} {type : Primitive} {choices : Option (List Value)}
    {v : Value} (present : v.isNull = false) (unread : type.coerce v = none) (path : ParamPath) :
    nodeValue path (.scalar a type choices) { value := v } =
      throw (.typeMismatch path type.name v) := by
  have refused : shapeScalar type choices path v = .error (.typeMismatch path type.name v) := by
    simp only [shapeScalar, unread]
  unfold nodeValue
  simp only [shape_present present, shapeGiven, refused]
  rfl

end Resolve

namespace Schema

variable {s : Schema}

/-- A flag can stand for the entry of its leaf: where both resolve the leaf alike, the
tokens with the rest of the config are as good as the config. -/
theorem resolve_moved (built : s.Built) {f : Flag} {leaf : Node} (hd : s.root.descend f.path = some leaf)
    {tokens : List String} {given : Given}
    (read : FlagInput.read s.flags tokens = .ok ⟨[(f.path, given)]⟩) {v : Value}
    (same : ∀ entry, property (some ⟨[(f.path, given)]⟩) f.paramPath entry leaf =
      property (some {}) f.paramPath (some v) leaf)
    {names : List String} {key : String} {config rest : Option Value}
    (hpath : f.path = names ++ [key]) (held : stored s.root config names key = some v)
    (elsewhere : s.root.SameElsewhere f.path config rest) :
    s.resolve rest (some tokens) = s.resolve config none := by
  have hobject : s.root.isObject := by
    obtain ⟨a, properties, hroot⟩ := built.root_object
    rw [hroot]
    rfl
  have walks : contents (some ⟨[(f.path, given)]⟩) .root s.root.properties rest =
      contents (some {}) .root s.root.properties config := by
    refine contents_congr_leaves built.distinct hobject ?_ ?_
    · intro names m hd hm here
      exact (elsewhere.objects names m hd hm here).symm
    · intro names' key' other hother hl
      by_cases here : names' ++ [key'] = f.path
      · obtain ⟨rfl, rfl⟩ : names' = names ∧ key' = key := by
          rw [hpath] at here
          simpa using List.append_inj' here rfl
        rw [here] at hother ⊢
        obtain rfl : other = leaf := Option.some.inj (hother.symm.trans hd)
        rw [held]
        exact same _
      · have hkeys : (ParamPath.root.below (names' ++ [key'])).keys = names' ++ [key'] := by simp
        have silent : FlagInput.get? ⟨[(f.path, given)]⟩ (names' ++ [key']) = none := by
          rw [FlagInput.get?_one, if_neg here]
        rw [property_leaf hl, property_leaf hl, elsewhere.leaves names' key' other hother hl here]
        unfold pick
        rw [hkeys, Option.bind_some, silent]
        rfl
  have unread : FlagInput.read s.flags [] = .ok {} := rfl
  rw [resolve_eq, resolve_eq, Option.getD_some, read, Option.getD_none, unread]
  show s.resolveInput rest _ = s.resolveInput config {}
  rw [resolveInput_eq, resolveInput_eq, walks]

/-- **Config values can be typed.** The tag of a text, an integer or a boolean, followed by
what is typed for a value that its node takes, is read as that one value. The node then
resolves as with the value in the config, and so does the whole tree with a config that
is the same elsewhere, unless the value is an integer that only an unsigned word holds.
Such an integer is refused, whatever the config holds. -/
theorem resolve_typed (built : s.Built) {f : Flag} (hf : f ∈ s.flags.flags) {a : Attributes}
    {t : ScalarType} {choices : Option (List Value)}
    (hd : s.root.descend f.path = some (.scalar a (.typed t) choices)) (discrete : t ≠ .number)
    {v r : Value} {fs fs' : FileSystem} (present : v.isNull = false)
    (resolves : (property (some {}) f.paramPath (some v) (.scalar a (.typed t) choices)).run fs =
      .ok r fs')
    (untagged : s.flags.isTag (renderLiteral v) = false) :
    ∃ input, FlagInput.read s.flags [f.longTag, renderLiteral v] = .ok input ∧
      (¬v.Unsigned →
        (∀ entry, (property (some input) f.paramPath entry (.scalar a (.typed t) choices)).run fs =
          .ok r fs') ∧
        ∀ names key config rest, f.path = names ++ [key] →
          stored s.root config names key = some v → s.root.SameElsewhere f.path config rest →
          s.resolve rest (some [f.longTag, renderLiteral v]) = s.resolve config none) ∧
      (v.Unsigned →
        (∀ entry, property (some input) f.paramPath entry (.scalar a (.typed t) choices) =
          throw (.typeMismatch f.paramPath "integer" (.string (renderLiteral v)))) ∧
        ∀ rest fs, ∃ e fs',
          (s.resolve rest (some [f.longTag, renderLiteral v])).run fs = .error e fs') := by
  obtain ⟨leaf, name, hflag, hne, hleaf, hl⟩ := built.flag_leaf hf
  obtain rfl : leaf = .scalar a (.typed t) choices := Option.some.inj (hleaf.symm.trans hd)
  have single : f.variadic = false := by
    rw [hflag]
    rfl
  let input : FlagInput := ⟨[(f.path, .single (renderLiteral v))]⟩
  have read : FlagInput.read s.flags [f.longTag, renderLiteral v] = .ok input :=
    FlagInput.read_single built.unambiguous hf single untagged
  have given : input.get? f.paramPath.keys = some (.single (renderLiteral v)) := by
    rw [Flag.paramPath, ParamPath.keys_ofKeys, FlagInput.get?_one, if_pos rfl]
  have flagged : ∀ entry, property (some input) f.paramPath entry (.scalar a (.typed t) choices) =
      nodeValue f.paramPath (.scalar a (.typed t) choices) { value := .string (renderLiteral v) } :=
    property_given hl given
  have configured : property (some {}) f.paramPath (some v) (.scalar a (.typed t) choices) =
      nodeValue f.paramPath (.scalar a (.typed t) choices) { value := v } := property_entry hl rfl v
  -- what resolves was read as a value of the type
  obtain ⟨w, taken⟩ : ∃ w, t.coerce v = some w := by
    rw [configured] at resolves
    obtain ⟨shaped, fs₁, hshape, -⟩ := run_bind_ok.mp resolves
    rw [shape_present present] at hshape
    obtain ⟨w, taken, -⟩ := shapeScalar_ok.mp (run_liftExcept_ok.mp hshape).1
    exact ⟨w, taken⟩
  refine ⟨input, read, fun signed => ?_, fun unsigned => ?_⟩
  · have same : ∀ entry, property (some input) f.paramPath entry (.scalar a (.typed t) choices) =
        property (some {}) f.paramPath (some v) (.scalar a (.typed t) choices) := by
      intro entry
      have reread : (Primitive.typed t).coerce (.string (renderLiteral v)) = some w :=
        coerce_renderLiteral discrete signed taken
      rw [flagged, configured]
      exact nodeValue_scalar_congr rfl present reread taken f.paramPath
    refine ⟨fun entry => by rw [same, resolves], fun names key config rest hpath held elsewhere => ?_⟩
    exact resolve_moved built hd read same hpath held elsewhere
  · obtain ⟨rfl, refused⟩ := coerce_renderLiteral_unsigned discrete unsigned taken
    have unread : (Primitive.typed .integer).coerce (.string (renderLiteral v)) = none := refused
    have thrown : ∀ entry, property (some input) f.paramPath entry
        (.scalar a (.typed .integer) choices) =
        throw (.typeMismatch f.paramPath "integer" (.string (renderLiteral v))) := by
      intro entry
      rw [flagged]
      exact nodeValue_scalar_refused rfl unread f.paramPath
    refine ⟨thrown, resolve_refused hne hd fun other hother entry fs w fs' run => ?_⟩
    obtain rfl : input = other := Except.ok.inj (read.symm.trans hother)
    exact run_throw_ok ((thrown entry) ▸ run)

/-- An integer and a text. -/
def limitDocument : Value :=
  .object [("properties", .object [
    ("limit", .object [("type", .string "integer")]),
    ("name", .object [("type", .string "string"), ("default", .string "run")])])]

/-- The integer of the document. -/
def limitNode : Node := .scalar {} (.typed .integer) none

/-- The text of the document. -/
def limitName : Node := .scalar { default := some (.string "run") } (.typed .string) none

/-- The flag of the integer. -/
def limitFlag : Flag := .ofNode limitNode ["limit"] "limit"

/-- The schema of the document. -/
def limitSchema : Schema where
  title := none
  description := none
  root := .object {} [("limit", limitNode), ("name", limitName)]
  flags := ⟨[limitFlag, .ofNode limitName ["name"] "name"]⟩

theorem limitSchema_built : limitSchema.Built := by
  have candidates : Flag.candidates [] "" limitSchema.root.properties = limitSchema.flags.flags := by cbv
  have admitted : FlagTable.ofFlags limitSchema.flags.flags = .ok limitSchema.flags := by decide +kernel
  refine ⟨limitDocument, ?_, ofValue_object_iff.mpr ⟨?_, rfl, ?_, rfl, rfl⟩⟩
  · simp [limitDocument, Value.WellFormed, Value.WellFormedEntries]
  · cbv
  · exact (congrArg FlagTable.ofFlags candidates).trans admitted

/-- The least integer of a signed word. -/
def leastLimit : Value := .number (.integer ⟨-0x8000000000000000, by decide, by decide⟩)

/-- The least integer of a signed word moves from the config to the command line. -/
theorem resolve_typed_limit :
    limitFlag ∈ limitSchema.flags.flags ∧
      limitSchema.root.descend limitFlag.path = some limitNode ∧
      leastLimit.isNull = false ∧
      (property (some {}) limitFlag.paramPath (some leastLimit) limitNode).run (.bare []) =
        .ok leastLimit (.bare []) ∧
      limitSchema.flags.isTag (renderLiteral leastLimit) = false ∧ ¬leastLimit.Unsigned ∧
      limitSchema.resolve (some (.object [("name", .string "test")]))
          (some ["--limit", "-9223372036854775808"]) =
        limitSchema.resolve (some (.object [("name", .string "test"), ("limit", leastLimit)])) none := by
  have declared : limitFlag ∈ limitSchema.flags.flags := List.mem_cons_self
  have descends : limitSchema.root.descend limitFlag.path = some limitNode := by cbv
  have resolves : (property (some {}) limitFlag.paramPath (some leastLimit) limitNode).run (.bare []) =
      .ok leastLimit (.bare []) := by cbv
  have untagged : limitSchema.flags.isTag (renderLiteral leastLimit) = false := by decide +kernel
  have signed : ¬leastLimit.Unsigned := by
    rintro ⟨n, hn, large⟩
    cases hn
    exact absurd large (by decide)
  have mappings : FilledByMappings limitSchema.root (some (.object [("name", .string "test")])) := by
    refine filledByMappings_object (fun v hv => ⟨_, by cases hv; rfl⟩) fun key b below hmem => ?_
    simp [limitNode, limitName] at hmem
  have elsewhere := Node.sameElsewhere_writeAt descends rfl mappings leastLimit
  obtain ⟨_, -, moved, -⟩ :=
    resolve_typed limitSchema_built declared descends (by decide) rfl resolves untagged
  refine ⟨declared, descends, rfl, resolves, untagged, signed, ?_⟩
  exact (moved signed).2 [] "limit" _ _ rfl rfl elsewhere

/-- The least integer that no signed word holds. -/
def largeLimit : Value := .number (.integer ⟨0x8000000000000000, by decide, by decide⟩)

/-- An integer that the config may hold and that cannot be typed. -/
theorem unsigned_not_typed :
    limitSchema.Built ∧ limitSchema.root.descend limitFlag.path = some limitNode ∧
      renderLiteral largeLimit = "9223372036854775808" ∧
      limitSchema.flags.isTag "9223372036854775808" = false ∧
      (limitSchema.resolve (some (.object [("limit", largeLimit)])) none).run (.bare []) =
        .ok (.object [("limit", largeLimit), ("name", .string "run")]) (.bare []) ∧
      (limitSchema.resolve none (some ["--limit", "9223372036854775808"])).run (.bare []) =
        .error (.typeMismatch (.ofKeys ["limit"]) "integer" (.string "9223372036854775808"))
          (.bare []) := by
  refine ⟨limitSchema_built, by cbv, by decide +kernel, by decide +kernel, by cbv, ?_⟩
  let input : FlagInput := ⟨[(["limit"], .single "9223372036854775808")]⟩
  let refusal : ResolveError :=
    .typeMismatch (.ofKeys ["limit"]) "integer" (.string "9223372036854775808")
  have read : FlagInput.read limitSchema.flags ["--limit", "9223372036854775808"] = .ok input := by
    decide +kernel
  have unread : (Primitive.typed .integer).coerce (.string "9223372036854775808") = none := by
    decide +kernel
  have refused : ∀ entry, property (some input) (.ofKeys ["limit"]) entry limitNode = throw refusal :=
    fun entry => (property_given rfl rfl entry).trans (nodeValue_scalar_refused rfl unread _)
  have walk : contents (some input) .root [("limit", limitNode), ("name", limitName)] none =
      throw refusal := by
    show fill (some input) .root [] [("limit", limitNode), ("name", limitName)] = throw refusal
    rw [fill_cons]
    show (property (some input) (.ofKeys ["limit"]) none limitNode >>= _) = _
    rw [refused]
    rfl
  rw [resolve_eq, Option.getD_some, read]
  show (limitSchema.resolveInput none input).run (.bare []) = .error refusal (.bare [])
  rw [resolveInput_eq]
  show (contents (some input) .root [("limit", limitNode), ("name", limitName)] none >>= _).run _ = _
  rw [walk]
  rfl

end Schema

end ParamTree
