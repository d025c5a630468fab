import Mathlib
import ParamTree.Proofs.OneByOne
import ParamTree.Schema.Flag

/-!
# Admitting flags

Flags can stand in one table exactly if every name and every further tag can be typed,
none asks for help, and no tag occurs twice (`FlagTable.Admissible`). A table is made flag
by flag, so it fails at the first flag and the first of its tags at fault: `insert` fails
as `FlagViolation` says, and `insertAll` as the first flag that has one. A table that is made
so can be searched by an index of its tags (`find?_eq_index`).
-/

namespace ParamTree

namespace Flag

/-! ## Texts that can be typed -/

/-- An ASCII letter or digit, then such letters and digits, underscores, points and dashes. -/
def NameText (cs : List Char) : Prop :=
  ∃ first rest, cs = first :: rest ∧ first.isAlphanum = true ∧
    ∀ c ∈ rest, c.isAlphanum = true ∨ c = '_' ∨ c = '.' ∨ c = '-'

/-- Such a name after one dash or two. -/
def TagText (cs : List Char) : Prop :=
  ∃ name, NameText name ∧ (cs = '-' :: name ∨ cs = '-' :: '-' :: name)

theorem isNameStart_eq (c : Char) : isNameStart c = c.isAlphanum := by
  simp [isNameStart, Char.isAlphanum, Char.isAlpha, Char.isUpper, Char.isLower, Char.isDigit,
    Char.le_def]

theorem isNameText_iff {cs : List Char} : isNameText cs = true ↔ NameText cs := by
  cases cs with
  | nil => simp [isNameText, NameText]
  | cons c cs => simp [isNameText, NameText, isNameChar, isNameStart_eq, or_assoc]

theorem not_nameText_dash (cs : List Char) : ¬NameText ('-' :: cs) := by
  rintro ⟨first, rest, heq, hfirst, -⟩
  cases heq
  exact absurd hfirst (by decide)

theorem validAlias_iff {tag : String} : validAlias tag = true ↔ TagText tag.toList := by
  unfold validAlias
  split
  · next name heq =>
    rw [heq, isNameText_iff]
    constructor
    · exact fun h => ⟨name, h, .inr rfl⟩
    · rintro ⟨other, h, hother | hother⟩
      · cases hother
        exact absurd h (not_nameText_dash name)
      · cases hother
        exact h
  · next name hne heq =>
    rw [heq, isNameText_iff]
    constructor
    · exact fun h => ⟨name, h, .inl rfl⟩
    · rintro ⟨other, h, hother | hother⟩
      · cases hother
        exact h
      · cases hother
        exact absurd rfl (hne other)
  · next htwo hone =>
    simp only [Bool.false_eq_true, false_iff]
    rintro ⟨name, -, h | h⟩
    · exact hone _ h
    · exact htwo _ h

end Flag

namespace FlagTable

variable {t : FlagTable} {f : Flag} {before : List String} {tag : String} {flags : List Flag}

/-! ## Looking up a tag -/

theorem find?_eq_none_iff : t.find? tag = none ↔ ∀ f ∈ t.flags, tag ∉ f.tags := by
  simp [find?]

/-- Where no tag is held twice, no two flags share one. -/
theorem eq_of_shared_tag (h : (flags.flatMap Flag.tags).Nodup) :
    ∀ f ∈ flags, ∀ g ∈ flags, ∀ tag, tag ∈ f.tags → tag ∈ g.tags → f = g := by
  intro f hf g hg tag htf htg
  -- two entries of the list share no tag, and the flags are its entries
  have disjoint := (List.nodup_flatMap.mp h).2
  have symm : Std.Symm (Function.onFun List.Disjoint Flag.tags) := ⟨fun _ _ hd => List.disjoint_symm hd⟩
  by_contra hne
  exact disjoint.forall hf hg hne htf htg

/-- Where no two flags share a tag, look-up finds each flag under its tags. -/
theorem find?_iff
    (unique : ∀ f ∈ t.flags, ∀ g ∈ t.flags, ∀ tag, tag ∈ f.tags → tag ∈ g.tags → f = g) :
    t.find? tag = some f ↔ f ∈ t.flags ∧ tag ∈ f.tags := by
  constructor
  · intro hfind
    exact ⟨List.mem_of_find?_eq_some hfind, by simpa using List.find?_some hfind⟩
  · rintro ⟨hf, htag⟩
    cases hfind : t.find? tag with
    | none => exact absurd htag (find?_eq_none_iff.mp hfind f hf)
    | some g =>
        have hg := List.mem_of_find?_eq_some hfind
        have htg : tag ∈ g.tags := by simpa using List.find?_some hfind
        rw [unique f hf g hg tag htag htg]

/-! ## Admissible flags and first violations -/

/-- Can the flags stand in one table? -/
structure Admissible (flags : List Flag) : Prop where
  name : ∀ f ∈ flags, Flag.NameText f.name.toList
  further : ∀ f ∈ flags, ∀ tag ∈ f.aliases, Flag.TagText tag.toList
  help : ∀ f ∈ flags, ∀ tag ∈ f.tags, tag ≠ "-h" ∧ tag ≠ "--help"
  distinct : (flags.flatMap Flag.tags).Nodup

/-- What is wrong with a tag of the flag `f`, after the flags `earlier` and the tags
`before` of the flag itself. Of several faults the first in this list counts. -/
inductive TagViolation (earlier : List Flag) (f : Flag) (before : List String) (tag : String) :
    SchemaFault → Prop
  | untypable (further : before ≠ []) (h : ¬Flag.TagText tag.toList) :
      TagViolation earlier f before tag (.invalidFlagName tag)
  | reserved (typable : before = [] ∨ Flag.TagText tag.toList) (h : tag = "-h" ∨ tag = "--help") :
      TagViolation earlier f before tag (.reservedFlag tag)
  /-- The tag is that of a flag before. -/
  | taken {other} (typable : before = [] ∨ Flag.TagText tag.toList) (free : tag ≠ "-h" ∧ tag ≠ "--help")
      (hother : other ∈ earlier) (h : tag ∈ other.tags) :
      TagViolation earlier f before tag (.duplicateFlag tag other.paramPath)
  /-- The flag itself has the tag already. -/
  | repeated (typable : before = [] ∨ Flag.TagText tag.toList) (free : tag ≠ "-h" ∧ tag ≠ "--help")
      (untaken : ∀ other ∈ earlier, tag ∉ other.tags) (h : tag ∈ before) :
      TagViolation earlier f before tag (.duplicateFlag tag f.paramPath)

/-- What is wrong with a flag after the flags `earlier`: its name, else the first of its
tags that is at fault. -/
inductive FlagViolation (earlier : List Flag) (f : Flag) : SchemaError → Prop
  | name (bad : ¬Flag.NameText f.name.toList) :
      FlagViolation earlier f ⟨f.paramPath, .invalidFlagName f.name⟩
  | tag {fault} (name : Flag.NameText f.name.toList)
      (bad : FirstFault (TagViolation earlier f) f.tags fault) :
      FlagViolation earlier f ⟨f.paramPath, fault⟩

/-! ## One tag -/

theorem mem_helpTags_iff : helpTags.contains tag = true ↔ tag = "-h" ∨ tag = "--help" := by
  simp [helpTags]

theorem free_iff : ¬helpTags.contains tag = true ↔ tag ≠ "-h" ∧ tag ≠ "--help" := by
  rw [mem_helpTags_iff]
  exact not_or

/-- The first test on a tag: only a further tag has to be typable by itself. -/
theorem untypable_iff : (!before.isEmpty && !Flag.validAlias tag) = true ↔
    before ≠ [] ∧ ¬Flag.TagText tag.toList := by
  simp [← Flag.validAlias_iff]

theorem typable_iff : ¬(!before.isEmpty && !Flag.validAlias tag) = true ↔
    before = [] ∨ Flag.TagText tag.toList := by
  rw [untypable_iff]
  tauto

theorem tagFault_none_iff : t.tagFault f before tag = none ↔
    (before = [] ∨ Flag.TagText tag.toList) ∧ (tag ≠ "-h" ∧ tag ≠ "--help") ∧
      (∀ other ∈ t.flags, tag ∉ other.tags) ∧ tag ∉ before := by
  rw [← typable_iff, ← free_iff, ← find?_eq_none_iff]
  unfold tagFault
  split
  · next hbad => simp only [hbad, not_true, false_and, reduceCtorEq]
  · next hgood =>
    split
    · next hhelp => simp only [hhelp, not_true, false_and, and_false, reduceCtorEq]
    · next hfree =>
      simp only [hgood, hfree]
      cases hfind : t.find? tag with
      | some other => simp
      | none => simp

/-- The fault of a tag in a table without ambiguity is the violation of the tag. -/
theorem tagFault_iff (distinct : (t.flags.flatMap Flag.tags).Nodup) {fault : SchemaFault} :
    t.tagFault f before tag = some fault ↔ TagViolation t.flags f before tag fault := by
  unfold tagFault
  constructor
  · intro h
    -- the tests of the function in turn, each with the violation it finds
    split at h
    · next hbad =>
      cases h
      obtain ⟨further, bad⟩ := untypable_iff.mp hbad
      exact .untypable further bad
    · next hgood =>
      have typable := typable_iff.mp hgood
      split at h
      · next hhelp =>
        cases h
        exact .reserved typable (mem_helpTags_iff.mp hhelp)
      · next hfree =>
        have free := free_iff.mp hfree
        split at h
        · next other hfind =>
          cases h
          obtain ⟨hother, htag⟩ := (find?_iff (eq_of_shared_tag distinct)).mp hfind
          exact .taken typable free hother htag
        · next hfind =>
          split at h
          · next hrepeated =>
            cases h
            exact .repeated typable free (find?_eq_none_iff.mp hfind) (by simpa using hrepeated)
          · cases h
  · intro h
    cases h with
    | untypable further h => rw [if_pos (untypable_iff.mpr ⟨further, h⟩)]
    | reserved typable h => rw [if_neg (typable_iff.mpr typable), if_pos (mem_helpTags_iff.mpr h)]
    | taken typable free hother h =>
        rw [if_neg (typable_iff.mpr typable), if_neg (free_iff.mpr free),
          (find?_iff (eq_of_shared_tag distinct)).mpr ⟨hother, h⟩]
    | repeated typable free untaken h =>
        rw [if_neg (typable_iff.mpr typable), if_neg (free_iff.mpr free),
          find?_eq_none_iff.mpr untaken]
        simp [h]

/-! ## The tags of one flag -/

variable {tags : List String}

theorem tagsFault_cons : t.tagsFault f before (tag :: tags) =
    (t.tagFault f before tag).or (t.tagsFault f (before ++ [tag]) tags) := by
  rw [tagsFault]
  cases t.tagFault f before tag with
  | none => rfl
  | some fault => rfl

/-- Further tags are good if they can be typed, ask for no help, and are new to the
table, to the tags before and to each other. -/
theorem tagsFault_none_iff (further : before ≠ []) : t.tagsFault f before tags = none ↔
    tags.Nodup ∧ ∀ tag ∈ tags, Flag.TagText tag.toList ∧ (tag ≠ "-h" ∧ tag ≠ "--help") ∧
      (∀ other ∈ t.flags, tag ∉ other.tags) ∧ tag ∉ before := by
  induction tags generalizing before with
  | nil => simp [tagsFault]
  | cons tag rest ih =>
      rw [tagsFault_cons, Option.or_eq_none_iff, tagFault_none_iff, ih (by simp)]
      simp only [further, false_or, List.nodup_cons, List.forall_mem_cons, List.mem_append,
        List.mem_singleton]
      grind

/-- The fault among several tags is that of the first tag with a violation. -/
theorem tagsFault_iff (distinct : (t.flags.flatMap Flag.tags).Nodup) {fault : SchemaFault} :
    t.tagsFault f before tags = some fault ↔
      FirstFault (fun pre => TagViolation t.flags f (before ++ pre)) tags fault := by
  induction tags generalizing before with
  | nil => simp [tagsFault, FirstFault]
  | cons tag rest ih =>
      have good : t.tagFault f before tag = none ↔
          ∀ fault, ¬TagViolation t.flags f before tag fault := by
        simp only [Option.eq_none_iff_forall_ne_some, ne_eq, tagFault_iff distinct]
      rw [tagsFault_cons, firstFault_cons, Option.or_eq_some_iff, tagFault_iff distinct, good, ih]
      simp only [List.append_nil, List.append_assoc, List.singleton_append]

/-! ## One flag -/

theorem insert_flags {u : FlagTable} (h : t.insert f = .ok u) : u.flags = t.flags ++ [f] := by
  unfold insert at h
  split at h
  · cases h
  · cases h
    rfl

theorem validName_iff : Flag.validName f.name = true ↔ Flag.NameText f.name.toList :=
  Flag.isNameText_iff

theorem insert_error_iff (distinct : (t.flags.flatMap Flag.tags).Nodup) {e : SchemaError} :
    t.insert f = .error e ↔ FlagViolation t.flags f e := by
  constructor
  · intro h
    unfold insert fault? at h
    split at h
    · next fault hfault =>
      cases h
      split at hfault
      · next hname =>
        cases hfault
        exact .name fun good => by simp [validName_iff.mpr good] at hname
      · next hname =>
        have good : Flag.validName f.name = true := by simpa using hname
        exact .tag (validName_iff.mp good) ((tagsFault_iff distinct).mp hfault)
    · cases h
  · intro h
    unfold insert fault?
    cases h with
    | name bad =>
        have invalid : Flag.validName f.name = false := by
          rw [← Bool.not_eq_true, validName_iff]
          exact bad
        simp [invalid]
    | tag name bad =>
        have htags : t.tagsFault f [] f.tags = some _ := (tagsFault_iff distinct).mpr bad
        simp [validName_iff.mpr name, htags]

theorem Admissible.of_append {more : List Flag} (h : Admissible (flags ++ more)) :
    Admissible flags where
  name f hf := h.name f (List.mem_append_left _ hf)
  further f hf := h.further f (List.mem_append_left _ hf)
  help f hf := h.help f (List.mem_append_left _ hf)
  distinct := by
    have all := h.distinct
    rw [List.flatMap_append] at all
    exact all.of_append_left

/-- A flag is added to admissible ones exactly if they stay so. -/
theorem insert_ok_iff (good : Admissible t.flags) :
    (∃ u, t.insert f = .ok u) ↔ Admissible (t.flags ++ [f]) := by
  have noFault : (∃ u, t.insert f = .ok u) ↔
      Flag.NameText f.name.toList ∧ t.tagsFault f [] f.tags = none := by
    rw [insert, fault?, ← validName_iff]
    cases Flag.validName f.name with
    | true => cases t.tagsFault f [] f.tags <;> simp
    | false => simp
  rw [noFault, Flag.tags, tagsFault_cons, Option.or_eq_none_iff, tagFault_none_iff,
    List.nil_append, tagsFault_none_iff (by simp)]
  constructor
  · rintro ⟨hname, ⟨-, hhelp, hnew, -⟩, hnodup, hfurther⟩
    -- the tags of the flag are the primary one and the further ones
    have help : ∀ tag ∈ f.tags, tag ≠ "-h" ∧ tag ≠ "--help" :=
      List.forall_mem_cons.mpr ⟨hhelp, fun tag htag => (hfurther tag htag).2.1⟩
    have new : ∀ tag ∈ f.tags, ∀ other ∈ t.flags, tag ∉ other.tags :=
      List.forall_mem_cons.mpr ⟨hnew, fun tag htag => (hfurther tag htag).2.2.1⟩
    have own : f.tags.Nodup := by
      refine List.nodup_cons.mpr ⟨fun hmem => ?_, hnodup⟩
      exact (hfurther _ hmem).2.2.2 (List.mem_singleton.mpr rfl)
    constructor
    · exact List.forall_mem_append.mpr ⟨good.name, by simpa using hname⟩
    · refine List.forall_mem_append.mpr ⟨good.further, ?_⟩
      simpa using fun tag htag => (hfurther tag htag).1
    · exact List.forall_mem_append.mpr ⟨good.help, by simpa using help⟩
    · rw [List.flatMap_append, List.flatMap_singleton]
      refine List.nodup_append.mpr ⟨good.distinct, own, ?_⟩
      rintro tag htag _ hown rfl
      obtain ⟨other, hother, hmem⟩ := List.mem_flatMap.mp htag
      exact new tag hown other hother hmem
  · intro all
    have hf : f ∈ t.flags ++ [f] := by simp
    have distinct := all.distinct
    rw [List.flatMap_append, List.flatMap_singleton] at distinct
    obtain ⟨-, own, apart⟩ := List.nodup_append.mp distinct
    have new : ∀ tag ∈ f.tags, ∀ other ∈ t.flags, tag ∉ other.tags := by
      intro tag htag other hother hmem
      exact apart tag (List.mem_flatMap.mpr ⟨other, hother, hmem⟩) tag htag rfl
    obtain ⟨hlong, hnodup⟩ := List.nodup_cons.mp own
    refine ⟨all.name f hf, ⟨.inl rfl, ?_, ?_, by simp⟩, hnodup, fun tag htag => ?_⟩
    · exact all.help f hf _ List.mem_cons_self
    · exact new _ List.mem_cons_self
    · have htag' : tag ∈ f.tags := List.mem_cons_of_mem _ htag
      refine ⟨all.further f hf tag htag, all.help f hf tag htag', new tag htag', ?_⟩
      rintro hmem
      rw [List.mem_singleton.mp hmem] at htag
      exact hlong htag

theorem Admissible.of_insert {u : FlagTable} (good : Admissible t.flags) (h : t.insert f = .ok u) :
    Admissible u.flags := by
  rw [insert_flags h]
  exact (insert_ok_iff good).mp ⟨u, h⟩

/-! ## All flags -/

theorem insertAll_ok_iff (good : Admissible t.flags) :
    (∃ u, t.insertAll flags = .ok u) ↔ Admissible (t.flags ++ flags) := by
  induction flags generalizing t with
  | nil => simp [insertAll, good]
  | cons f rest ih =>
      rw [insertAll, List.append_cons]
      cases hf : t.insert f with
      | error e =>
          simp only [reduceCtorEq, exists_false, false_iff]
          intro all
          obtain ⟨u, hu⟩ := (insert_ok_iff good).mpr all.of_append
          rw [hf] at hu
          cases hu
      | ok u =>
          rw [← insert_flags hf]
          exact ih (good.of_insert hf)

theorem insertAll_error_iff (good : Admissible t.flags) {e : SchemaError} :
    t.insertAll flags = .error e ↔
      FirstFault (fun earlier => FlagViolation (t.flags ++ earlier)) flags e := by
  induction flags generalizing t with
  | nil => simp [insertAll, FirstFault]
  | cons f rest ih =>
      have head : ∀ c, FlagViolation (t.flags ++ []) f c ↔ t.insert f = .error c := by
        intro c
        rw [List.append_nil, insert_error_iff good.distinct]
      rw [firstFault_cons, insertAll]
      simp only [head]
      cases hf : t.insert f with
      | error c => simp
      | ok u =>
          rw [ih (good.of_insert hf), insert_flags hf]
          simp

theorem insertAll_flags {u : FlagTable} (h : t.insertAll flags = .ok u) :
    u.flags = t.flags ++ flags := by
  induction flags generalizing t with
  | nil =>
      cases h
      rw [List.append_nil]
  | cons f rest ih =>
      unfold insertAll at h
      split at h
      · next t' ht => rw [ih h, insert_flags ht, List.append_assoc, List.singleton_append]
      · cases h

theorem admissible_nil : Admissible [] := by
  constructor
  all_goals simp

/-- A table holds the flags that it was made of, and no tag twice. -/
theorem ofFlags_ok (h : ofFlags flags = .ok t) :
    t.flags = flags ∧ (flags.flatMap Flag.tags).Nodup := by
  have admitted : Admissible ([] ++ flags) := (insertAll_ok_iff admissible_nil).mp ⟨t, h⟩
  exact ⟨insertAll_flags h, admitted.distinct⟩

/-! ## Positions by tag -/

/-- The positions by tag after a flag at `position`, which all its tags select. -/
def place (index : Std.HashMap String Nat) (position : Nat) (tags : List String) :
    Std.HashMap String Nat :=
  tags.foldl (fun index tag => index.insert tag position) index

/-- The positions of the flags by their tags, placed flag by flag. -/
def index (t : FlagTable) : Std.HashMap String Nat :=
  t.flags.zipIdx.foldl (fun index entry => place index entry.2 entry.1.tags) ∅

theorem getElem?_place (index : Std.HashMap String Nat) (position : Nat) (tags : List String) :
    (place index position tags)[tag]? = if tag ∈ tags then some position else index[tag]? := by
  induction tags generalizing index with
  | nil => rfl
  | cons first rest ih =>
      rw [place, List.foldl_cons, ← place, ih, Std.HashMap.getElem?_insert]
      by_cases later : tag ∈ rest
      · simp [later]
      · simp only [later, if_false, List.mem_cons, or_false, beq_iff_eq, eq_comm (a := tag)]

theorem index_concat (flags : List Flag) (f : Flag) :
    index ⟨flags ++ [f]⟩ = place (index ⟨flags⟩) flags.length f.tags := by
  simp [index, List.zipIdx_append]

/-- The index of a table grows with the table. -/
theorem insert_index {u : FlagTable} (h : t.insert f = .ok u) :
    u.index = place t.index t.flags.length f.tags := by
  obtain ⟨flags⟩ := u
  obtain rfl : flags = t.flags ++ [f] := insert_flags h
  exact index_concat t.flags f

/-- Where no tag is held twice, a tag has the position of its flag. -/
theorem index_iff (distinct : (flags.flatMap Flag.tags).Nodup) {position : Nat} :
    (index ⟨flags⟩)[tag]? = some position ↔ ∃ f, flags[position]? = some f ∧ tag ∈ f.tags := by
  induction flags using List.reverseRecOn with
  | nil => simp [index]
  | append_singleton flags f ih =>
      rw [List.flatMap_append, List.flatMap_singleton, List.nodup_append] at distinct
      obtain ⟨before, -, apart⟩ := distinct
      rw [index_concat, getElem?_place]
      split
      · next own =>
        -- no flag before has the tag, so it can only be that of the last one
        have unshared : ∀ g ∈ flags, tag ∉ g.tags := fun g hg htag =>
          apart tag (List.mem_flatMap.mpr ⟨g, hg, htag⟩) tag own rfl
        rw [Option.some_inj]
        constructor
        · rintro rfl
          exact ⟨f, by simp, own⟩
        · rintro ⟨g, hg, htag⟩
          rcases Nat.lt_trichotomy flags.length position with after | last | earlier
          · rw [List.getElem?_eq_none (by simpa using after)] at hg
            cases hg
          · exact last
          · rw [List.getElem?_append_left earlier] at hg
            exact absurd htag (unshared g (List.mem_of_getElem? hg))
      · next other =>
        rw [ih before]
        constructor
        · rintro ⟨g, hg, htag⟩
          have earlier := (List.getElem?_eq_some_iff.mp hg).1
          exact ⟨g, by rwa [List.getElem?_append_left earlier], htag⟩
        · rintro ⟨g, hg, htag⟩
          rw [List.getElem?_append] at hg
          split at hg
          · exact ⟨g, hg, htag⟩
          · rw [List.mem_singleton.mp (List.mem_of_getElem? hg)] at htag
            exact absurd htag other

/-- **Look-up by position.** In every table that is made of flags one by one, the position
that the index has for a tag is that of the flag which the search finds, and a token is a
tag exactly if the index has it. -/
theorem find?_eq_index (h : ofFlags flags = .ok t) (tag : String) :
    t.find? tag = t.index[tag]?.bind (t.flags[·]?) ∧ t.isTag tag = t.index.contains tag := by
  obtain ⟨rfl, distinct⟩ := ofFlags_ok h
  have search : t.find? tag = t.index[tag]?.bind (t.flags[·]?) := by
    cases hindex : t.index[tag]? with
    | none =>
        rw [Option.bind_none, find?_eq_none_iff]
        intro f hf htag
        obtain ⟨position, hposition⟩ := List.getElem?_of_mem hf
        rw [(index_iff distinct).mpr ⟨f, hposition, htag⟩] at hindex
        cases hindex
    | some position =>
        obtain ⟨f, hf, htag⟩ := (index_iff distinct).mp hindex
        rw [Option.bind_some, hf, find?_iff (eq_of_shared_tag distinct)]
        exact ⟨List.mem_of_getElem? hf, htag⟩
  refine ⟨search, ?_⟩
  rw [isTag, search, Std.HashMap.contains_eq_isSome_getElem?]
  cases hindex : t.index[tag]? with
  | none => rfl
  | some position =>
      obtain ⟨f, hf, -⟩ := (index_iff distinct).mp hindex
      rw [Option.bind_some, hf]
      rfl

end FlagTable

end ParamTree
