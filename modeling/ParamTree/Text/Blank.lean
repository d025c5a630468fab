/-!
# Blank characters

The characters that separate words (the Unicode property `White_Space`), and
what is done with them: trimming the ends of a text and splitting a text into
its words. `words_blankFree` says that no word keeps a blank, and
`trimEnd_append_blanks` that nothing but blanks is trimmed.
-/

namespace ParamTree.Text

/-- Is `c` a character of the Unicode property `White_Space`? -/
def isBlank (c : Char) : Bool :=
  let n := c.toNat
  (9 ≤ n && n ≤ 13) || n == 0x20 || n == 0x85 || n == 0xa0 || n == 0x1680 ||
    (0x2000 ≤ n && n ≤ 0x200a) || n == 0x2028 || n == 0x2029 || n == 0x202f ||
    n == 0x205f || n == 0x3000

/-- The characters of `cs` without the blanks at its end. -/
def dropTrailing (cs : List Char) : List Char :=
  (cs.reverse.dropWhile isBlank).reverse

/-- The text without the blanks at its two ends. -/
def trim (s : String) : String :=
  String.ofList (dropTrailing (s.toList.dropWhile isBlank))

/-- The text without the blanks at its end. -/
def trimEnd (s : String) : String :=
  String.ofList (dropTrailing s.toList)

/-- The maximal blank-free runs of `word ++ cs`, where `word` is the run that is
being read. -/
def wordsFrom (word : List Char) : List Char → List (List Char)
  | [] => if word.isEmpty then [] else [word]
  | c :: cs =>
    if isBlank c then
      if word.isEmpty then wordsFrom [] cs else word :: wordsFrom [] cs
    else wordsFrom (word ++ [c]) cs

/-- The words of a text: its maximal runs without blanks, in order. -/
def words (s : String) : List String :=
  (wordsFrom [] s.toList).map String.ofList

/-- The text with every run of blanks written as one space and none at the ends. -/
def collapse (s : String) : String :=
  " ".intercalate (words s)

/-! ## What trimming drops -/

theorem dropTrailing_append_blanks (cs : List Char) :
    ∃ blanks, cs = dropTrailing cs ++ blanks ∧ ∀ c ∈ blanks, isBlank c = true := by
  refine ⟨(cs.reverse.takeWhile isBlank).reverse, ?_, ?_⟩
  · rw [dropTrailing, ← List.reverse_append, List.takeWhile_append_dropWhile, List.reverse_reverse]
  · intro c hc
    exact List.all_eq_true.mp List.all_takeWhile c (List.mem_reverse.mp hc)

theorem toList_trimEnd (s : String) : (trimEnd s).toList = dropTrailing s.toList := by
  rw [trimEnd, String.toList_ofList]

/-- Blanks are dropped at the end, and nothing else. -/
theorem trimEnd_append_blanks (s : String) :
    ∃ blanks, s = trimEnd s ++ blanks ∧ ∀ c ∈ blanks.toList, isBlank c = true := by
  obtain ⟨blanks, split, blank⟩ := dropTrailing_append_blanks s.toList
  refine ⟨String.ofList blanks, ?_, by rwa [String.toList_ofList]⟩
  rw [trimEnd, ← String.ofList_append, ← split, String.ofList_toList]

/-- Nothing is dropped up to a character that is no blank. -/
theorem dropTrailing_append_cons {c : Char} (solid : isBlank c = false) (before after : List Char) :
    dropTrailing (before ++ c :: after) = before ++ c :: dropTrailing after := by
  simp only [dropTrailing, List.reverse_append, List.reverse_cons, List.append_assoc,
    List.singleton_append, List.dropWhile_append, List.isEmpty_iff]
  have kept : List.dropWhile isBlank (c :: before.reverse) = c :: before.reverse :=
    List.dropWhile_cons_of_neg (by simp [solid])
  split
  · next none => rw [kept, none, List.reverse_cons, List.reverse_reverse]; rfl
  · simp

/-! ## Words -/

/-- No run that is split off holds a blank. -/
theorem wordsFrom_blankFree (word cs : List Char) (h : ∀ c ∈ word, isBlank c = false) :
    ∀ w ∈ wordsFrom word cs, ∀ c ∈ w, isBlank c = false := by
  induction cs generalizing word with
  | nil =>
    intro w hw
    unfold wordsFrom at hw
    split at hw
    · cases hw
    · rw [List.mem_singleton] at hw
      exact hw ▸ h
  | cons d ds ih =>
    intro w hw
    unfold wordsFrom at hw
    split at hw
    · split at hw
      · exact ih [] (by simp) w hw
      · rcases List.mem_cons.mp hw with rfl | hw
        · exact h
        · exact ih [] (by simp) w hw
    · next hd =>
      refine ih (word ++ [d]) ?_ w hw
      intro c hc
      rcases List.mem_append.mp hc with hc | hc
      · exact h c hc
      · rw [List.mem_singleton] at hc
        simpa [hc] using hd

/-- No word of a text holds a blank. -/
theorem words_blankFree (s : String) :
    ∀ w ∈ words s, ∀ c ∈ w.toList, isBlank c = false := by
  intro w hw
  obtain ⟨cs, hcs, rfl⟩ := List.mem_map.mp hw
  simpa using wordsFrom_blankFree [] s.toList (by simp) cs hcs

end ParamTree.Text
