import Mathlib
import ParamTree.Proofs.Flags
import ParamTree.Report.Columns
import ParamTree.Text.Blank

/-!
# Marks in printed texts

A line break ends a line, and in a table a pipe that no backslash escapes ends a cell. What is
printed is read as it was meant exactly if its parts have no such mark of their own
(`parts_intercalate_iff`). Most parts have none: the tags of a built schema, the type summaries
and what is written around them. The free texts of a document may.
-/

namespace ParamTree

namespace Report

/-! ## Dividing a text -/

/-- A text is divided into lines, and the line of a table into cells. -/
inductive Division where
  | lines
  | cells

namespace Division

/-- Does the character end a part of which `before` is read? A pipe does not after a backslash
that is not itself escaped, that is after an odd number of them. -/
def endsAt : Division → List Char → Char → Bool
  | lines, _, c => c == '\n'
  | cells, before, c => c == '|' && (before.reverse.takeWhile (· == '\\')).length % 2 == 0

/-- The parts of a text, the first of which starts with `part`. -/
def cut (d : Division) (part : List Char) : List Char → List (List Char)
  | [] => [part]
  | c :: cs => if d.endsAt part c then part :: d.cut [] cs else d.cut (part ++ [c]) cs

/-- The parts of a text. -/
def parts (d : Division) (text : String) : List String := (d.cut [] text.toList).map String.ofList

/-- Is there a mark in the text that ends a part? -/
def Breaks (d : Division) (text : List Char) : Prop :=
  ∃ before c after, text = before ++ c :: after ∧ d.endsAt before c = true

variable {d : Division} {c sep : Char} {part x y text : List Char}

theorem not_breaks_nil : ¬d.Breaks [] := by
  rintro ⟨before, c, after, split, -⟩
  simp at split

theorem breaks_concat : d.Breaks (x ++ [c]) ↔ d.Breaks x ∨ d.endsAt x c = true := by
  constructor
  · rintro ⟨before, e, after, split, ends⟩
    rcases List.eq_nil_or_concat' after with rfl | ⟨after, last, rfl⟩
    · obtain ⟨rfl, rfl⟩ : x = before ∧ c = e := by simpa using split
      exact .inr ends
    · rw [← List.cons_append, ← List.append_assoc] at split
      exact .inl ⟨before, e, after, (List.append_inj' split rfl).1, ends⟩
  · rintro (⟨before, e, after, rfl, ends⟩ | ends)
    · exact ⟨before, e, after ++ [c], by simp, ends⟩
    · exact ⟨x, c, [], rfl, ends⟩

theorem breaks_lines_iff : lines.Breaks text ↔ '\n' ∈ text := by
  constructor
  · rintro ⟨before, c, after, rfl, ends⟩
    obtain rfl : c = '\n' := by simpa [endsAt] using ends
    simp
  · intro h
    obtain ⟨before, after, rfl⟩ := List.append_of_mem h
    exact ⟨before, '\n', after, rfl, rfl⟩

/-- Without a mark the part goes on. -/
theorem cut_unbroken (whole : ¬d.Breaks (part ++ x)) : d.cut part (x ++ y) = d.cut (part ++ x) y := by
  induction x generalizing part with
  | nil => rw [List.nil_append, List.append_nil]
  | cons c x ih =>
      have goes : ¬d.endsAt part c = true := fun ends => whole ⟨part, c, x, rfl, ends⟩
      rw [List.append_cons] at whole
      rw [List.cons_append, cut, if_neg goes, ih whole, List.append_cons part c x]

/-- No part has a mark that ends one. -/
theorem not_breaks_of_mem_cut {p : List Char} (whole : ¬d.Breaks part) (h : p ∈ d.cut part text) :
    ¬d.Breaks p := by
  induction text generalizing part with
  | nil =>
      rw [cut, List.mem_singleton] at h
      exact h ▸ whole
  | cons c cs ih =>
      rw [cut] at h
      split at h
      · rcases List.mem_cons.mp h with rfl | h
        · exact whole
        · exact ih not_breaks_nil h
      · next goes =>
        exact ih (fun breaks => (breaks_concat.mp breaks).elim whole goes) h

/-- A text without a mark is its only part. -/
theorem not_breaks_iff : ¬d.Breaks text ↔ d.cut [] text = [text] := by
  constructor
  · intro whole
    have alone : d.cut [] (text ++ []) = d.cut ([] ++ text) [] := cut_unbroken whole
    rwa [List.append_nil, List.nil_append, cut] at alone
  · intro alone
    exact not_breaks_of_mem_cut not_breaks_nil (alone ▸ List.mem_singleton_self text)

instance (d : Division) (text : List Char) : Decidable (d.Breaks text) :=
  decidable_of_iff (d.cut [] text ≠ [text]) (not_iff_comm.mp not_breaks_iff)

theorem cut_intercalate_iff {ps : List (List Char)} (filled : ps ≠ [])
    (ends : ∀ p ∈ ps, d.endsAt p sep = true) :
    d.cut [] ([sep].intercalate ps) = ps ↔ ∀ p ∈ ps, ¬d.Breaks p := by
  constructor
  · intro same p hp
    exact not_breaks_of_mem_cut not_breaks_nil (same.symm ▸ hp)
  · intro whole
    induction ps with
    | nil => exact absurd rfl filled
    | cons p rest ih =>
        obtain ⟨first, others⟩ := List.forall_mem_cons.mp whole
        obtain ⟨endsFirst, endsOthers⟩ := List.forall_mem_cons.mp ends
        cases rest with
        | nil =>
            rw [List.intercalate_singleton, not_breaks_iff.mp first]
        | cons q more =>
            rw [List.intercalate_cons_cons, List.append_assoc, cut_unbroken first, List.nil_append,
              List.singleton_append, cut, if_pos endsFirst,
              ih (List.cons_ne_nil q more) endsOthers others]

/-- Joined by a mark, texts are the parts exactly if they have none of their own. -/
theorem parts_intercalate_iff {ps : List String} (filled : ps ≠ [])
    (ends : ∀ p ∈ ps, d.endsAt p.toList sep = true) :
    d.parts ((String.singleton sep).intercalate ps) = ps ↔ ∀ p ∈ ps, ¬d.Breaks p.toList := by
  have written : (ps.map String.toList).map String.ofList = ps := by simp [Function.comp_def]
  have read := cut_intercalate_iff (d := d) (List.map_eq_nil_iff.not.mpr filled)
    (List.forall_mem_map.mpr ends)
  calc d.parts ((String.singleton sep).intercalate ps) = ps
      ↔ (d.cut [] ([sep].intercalate (ps.map String.toList))).map String.ofList =
          (ps.map String.toList).map String.ofList := by
        rw [written, parts, String.toList_intercalate, String.toList_singleton]
    _ ↔ d.cut [] ([sep].intercalate (ps.map String.toList)) = ps.map String.toList :=
        List.map_inj_right fun _ _ => String.ofList_injective
    _ ↔ ∀ p ∈ ps, ¬d.Breaks p.toList := read.trans List.forall_mem_map

/-- A backslash that is escaped itself escapes no pipe. -/
example : cells.parts "a \\| b \\\\| c" = ["a \\| b \\\\", " c"] := by decide +kernel

/-! ## Characters without meaning -/

/-- Is the character no mark, and does it escape none? -/
def Plain : Division → Char → Prop
  | lines, c => c ≠ '\n'
  | cells, c => c ≠ '|' ∧ c ≠ '\\'

theorem Plain.not_endsAt (plain : d.Plain c) (before : List Char) : ¬d.endsAt before c = true := by
  cases d with
  | lines =>
      have other : c ≠ '\n' := plain
      simpa [endsAt] using other
  | cells => simp [endsAt, plain.1]

/-- What stands before such a character does not matter after it. -/
theorem Plain.endsAt_after (plain : d.Plain c) (x y : List Char) (e : Char) :
    d.endsAt (x ++ c :: y) e = d.endsAt y e := by
  cases d with
  | lines => rfl
  | cells =>
      -- the run of backslashes before the mark does not reach over the plain character
      have stops : (y.reverse ++ c :: x.reverse).takeWhile (· == '\\') =
          y.reverse.takeWhile (· == '\\') := by
        rw [List.takeWhile_append, List.takeWhile_cons_of_neg (by simpa using plain.2)]
        split
        · next all =>
          rw [List.append_nil, (List.takeWhile_prefix _).eq_of_length all]
        · rfl
      rw [endsAt, endsAt, List.reverse_append, List.reverse_cons, List.append_assoc,
        List.singleton_append, stops]

theorem breaks_append_cons (plain : d.Plain c) : d.Breaks (x ++ c :: y) ↔ d.Breaks x ∨ d.Breaks y := by
  constructor
  · rintro ⟨before, e, after, split, ends⟩
    -- the mark stands behind the plain character or before it
    rcases List.append_eq_append_iff.mp split with ⟨more, rfl, hmore⟩ | ⟨more, rfl, hmore⟩
    · cases more with
      | nil =>
          cases hmore
          exact absurd ends (plain.not_endsAt _)
      | cons first more =>
          cases hmore
          exact .inr ⟨more, e, after, rfl, plain.endsAt_after x more e ▸ ends⟩
    · cases more with
      | nil =>
          cases hmore
          exact absurd ends (plain.not_endsAt _)
      | cons first more =>
          cases hmore
          exact .inl ⟨before, e, more, rfl, ends⟩
  · rintro (⟨before, e, after, rfl, ends⟩ | ⟨before, e, after, rfl, ends⟩)
    · exact ⟨before, e, after ++ c :: y, by simp, ends⟩
    · exact ⟨x ++ c :: before, e, after, by simp, (plain.endsAt_after x before e).trans ends⟩

/-- Plain text in front adds no mark. -/
theorem breaks_append_left (plain : ∀ c ∈ x, d.Plain c) : d.Breaks (x ++ y) ↔ d.Breaks y := by
  induction x with
  | nil => rfl
  | cons c x ih =>
      obtain ⟨first, others⟩ := List.forall_mem_cons.mp plain
      have after := breaks_append_cons (x := []) (y := x ++ y) first
      rw [List.cons_append, ← ih others]
      exact after.trans (or_iff_right not_breaks_nil)

theorem not_breaks_of_plain (plain : ∀ c ∈ x, d.Plain c) : ¬d.Breaks x := by
  intro breaks
  rw [← List.append_nil x, breaks_append_left plain] at breaks
  exact not_breaks_nil breaks

/-- Plain text behind adds no mark. -/
theorem breaks_append_right (plain : ∀ c ∈ y, d.Plain c) : d.Breaks (x ++ y) ↔ d.Breaks x := by
  cases y with
  | nil => rw [List.append_nil]
  | cons c y =>
      obtain ⟨first, others⟩ := List.forall_mem_cons.mp plain
      exact (breaks_append_cons first).trans (or_iff_left (not_breaks_of_plain others))

/-- Texts joined by plain text have the marks that they have alone. -/
theorem breaks_intercalate {joint : String} (filled : joint ≠ "") (plain : ∀ c ∈ joint.toList, d.Plain c)
    (texts : List String) :
    d.Breaks (joint.intercalate texts).toList ↔ ∃ text ∈ texts, d.Breaks text.toList := by
  obtain ⟨c, rest, split⟩ := List.exists_cons_of_ne_nil (String.toList_eq_nil_iff.not.mpr filled)
  rw [split] at plain
  obtain ⟨first, others⟩ := List.forall_mem_cons.mp plain
  induction texts with
  | nil => simp [not_breaks_nil]
  | cons text texts ih =>
      cases texts with
      | nil => simp
      | cons next more =>
          rw [String.intercalate_cons_cons, String.toList_append, String.toList_append, split,
            List.append_assoc, List.cons_append, breaks_append_cons first, breaks_append_left others,
            ih]
          simp only [List.mem_cons, exists_eq_or_imp]

end Division

/-- Has the text no mark and no backslash? -/
def Tidy (text : List Char) : Prop := ∀ c ∈ text, c ≠ '\n' ∧ c ≠ '|' ∧ c ≠ '\\'

theorem tidy_append {x y : List Char} : Tidy (x ++ y) ↔ Tidy x ∧ Tidy y := List.forall_mem_append

theorem Tidy.plain {text : List Char} (tidy : Tidy text) (d : Division) : ∀ c ∈ text, d.Plain c := by
  intro c hc
  cases d with
  | lines => exact (tidy c hc).1
  | cells => exact (tidy c hc).2

end Report

/-! ## Texts of a built schema -/

namespace Node

theorem mem_squeeze {summary : String} {summaries : List String} (h : summary ∈ squeeze summaries) :
    summary ∈ summaries := by
  induction summaries with
  | nil => exact h
  | cons first rest ih =>
      rw [squeeze] at h
      split at h
      · next second more heq =>
        rw [heq] at ih
        split at h
        · exact List.mem_cons_of_mem _ (ih h)
        · rcases List.mem_cons.mp h with rfl | h
          · exact List.mem_cons_self
          · exact List.mem_cons_of_mem _ (ih h)
      · rw [List.mem_singleton.mp h]
        exact List.mem_cons_self

theorem shareSummary_cases (summaries : List String) : shareSummary summaries = "dict" ∨
    shareSummary summaries = "any" ∨ shareSummary summaries ∈ summaries := by
  rw [shareSummary]
  split
  · exact .inl rfl
  · next only heq => exact .inr (.inr (mem_squeeze (heq ▸ List.mem_singleton_self only)))
  · exact .inr (.inl rfl)

theorem mem_firstArraySummary {summary : String} {alternatives : List Node}
    (h : firstArraySummary alternatives = some summary) :
    ∃ n ∈ alternatives, n.typeSummary = summary := by
  induction alternatives with
  | nil => cases h
  | cons n rest ih =>
      rw [firstArraySummary] at h
      split at h
      · exact ⟨n, List.mem_cons_self, Option.some.inj h⟩
      · obtain ⟨m, hm, same⟩ := ih h
        exact ⟨m, List.mem_cons_of_mem n hm, same⟩

theorem mem_leafSummaries {summary : String} {alternatives : List Node}
    (h : summary ∈ leafSummaries alternatives) : ∃ n ∈ alternatives, n.typeSummary = summary := by
  induction alternatives with
  | nil => cases h
  | cons n rest ih =>
      have later (h : summary ∈ leafSummaries rest) : ∃ m ∈ n :: rest, m.typeSummary = summary := by
        obtain ⟨m, hm, same⟩ := ih h
        exact ⟨m, List.mem_cons_of_mem n hm, same⟩
      rw [leafSummaries] at h
      split at h
      · exact later h
      · rcases List.mem_cons.mp h with rfl | h
        · exact ⟨n, List.mem_cons_self, rfl⟩
        · exact later h

/-- A type summary is made of the names of types, brackets and points. -/
theorem typeSummary_tidy (n : Node) : Report.Tidy n.typeSummary.toList := by
  induction n using treeInduction with
  | object a properties => simp [typeSummary, Report.Tidy]
  | array a items ih =>
      rw [typeSummary, String.toList_append, String.toList_append, Report.tidy_append,
        Report.tidy_append]
      exact ⟨⟨by simp [Report.Tidy], ih⟩, by simp [Report.Tidy]⟩
  | union a alternatives ih =>
      rw [typeSummary]
      split
      · next summary heq =>
        obtain ⟨n, hn, rfl⟩ := mem_firstArraySummary heq
        exact ih n hn
      · rcases shareSummary_cases (leafSummaries alternatives) with heq | heq | hmem
        · simp [heq, Report.Tidy]
        · simp [heq, Report.Tidy]
        · obtain ⟨n, hn, same⟩ := mem_leafSummaries hmem
          exact same ▸ ih n hn
  | scalar a type choices =>
      rw [typeSummary]
      rcases type with ⟨_ | _ | _ | _⟩ | _
      all_goals simp [Primitive.summary, ScalarType.summary, Report.Tidy]

end Node

namespace Flag

/-- A name has letters, digits, underscores, points and dashes only. -/
theorem NameText.tidy {cs : List Char} (h : NameText cs) : Report.Tidy cs := by
  obtain ⟨first, rest, rfl, start, others⟩ := h
  have letter {c : Char} (h : c.isAlphanum = true) : c ≠ '\n' ∧ c ≠ '|' ∧ c ≠ '\\' := by
    refine ⟨?_, ?_, ?_⟩
    all_goals
      rintro rfl
      exact absurd h (by decide)
  refine List.forall_mem_cons.mpr ⟨letter start, ?_⟩
  intro c hc
  rcases others c hc with more | rfl | rfl | rfl
  · exact letter more
  all_goals decide

theorem TagText.tidy {cs : List Char} (h : TagText cs) : Report.Tidy cs := by
  have dash : '-' ≠ '\n' ∧ '-' ≠ '|' ∧ '-' ≠ '\\' := by decide
  obtain ⟨name, hname, rfl | rfl⟩ := h
  · exact List.forall_mem_cons.mpr ⟨dash, hname.tidy⟩
  · exact List.forall_mem_cons.mpr ⟨dash, List.forall_mem_cons.mpr ⟨dash, hname.tidy⟩⟩

end Flag

namespace Schema.Built

variable {s : Schema} {f : Flag}

theorem tags_tidy (built : s.Built) (hf : f ∈ s.flags.flags) {tag : String} (h : tag ∈ f.tags) :
    Report.Tidy tag.toList := by
  rcases List.mem_cons.mp h with rfl | h
  · rw [Flag.longTag, String.toList_append, Report.tidy_append]
    exact ⟨by simp [Report.Tidy], (built.admissible.name f hf).tidy⟩
  · exact (built.admissible.further f hf tag h).tidy

theorem summary_tidy (built : s.Built) (hf : f ∈ s.flags.flags) :
    Report.Tidy f.typeSummary.toList := by
  obtain ⟨leaf, name, flag, -, -, -⟩ := built.flag_leaf hf
  rw [flag, Flag.ofNode]
  split
  · rw [String.toList_append, Report.tidy_append]
    exact ⟨leaf.typeSummary_tidy, by simp [Report.Tidy]⟩
  · exact leaf.typeSummary_tidy

end Schema.Built

/-! ## Marks of what is printed -/

namespace Report

open Division

variable {f : Flag} {d : Division}

/-- Plain text around a text adds no mark. -/
theorem breaks_wrapped {opening closing text : String} (before : ∀ c ∈ opening.toList, d.Plain c)
    (after : ∀ c ∈ closing.toList, d.Plain c) :
    d.Breaks (opening ++ text ++ closing).toList ↔ d.Breaks text.toList := by
  rw [String.toList_append, String.toList_append, breaks_append_right after, breaks_append_left before]

/-- Commas between texts add no mark. -/
theorem breaks_commas (texts : List String) :
    d.Breaks (", ".intercalate texts).toList ↔ ∃ text ∈ texts, d.Breaks text.toList := by
  have comma : Tidy ", ".toList := by simp [Tidy]
  exact breaks_intercalate (by decide) (comma.plain d) texts

theorem breaks_valueCell (type : Tidy f.typeSummary.toList) :
    d.Breaks (valueCell f).toList ↔ ∃ text ∈ f.choices, d.Breaks text.toList := by
  have braces : Tidy "\x7b".toList ∧ Tidy "\x7d".toList := by simp [Tidy]
  have brackets : Tidy "[".toList ∧ Tidy "]".toList := by simp [Tidy]
  rw [← breaks_commas]
  have summary : d.Breaks (if f.choices.isEmpty then f.typeSummary
      else "\x7b" ++ ", ".intercalate f.choices ++ "\x7d").toList ↔
      d.Breaks (", ".intercalate f.choices).toList := by
    split
    · next none =>
      rw [List.isEmpty_iff.mp none, String.intercalate_nil]
      exact iff_of_false (not_breaks_of_plain (type.plain d)) not_breaks_nil
    · exact breaks_wrapped (braces.1.plain d) (braces.2.plain d)
  rw [valueCell]
  split
  · exact (breaks_wrapped (brackets.1.plain d) (brackets.2.plain d)).trans summary
  · exact summary

/-- Lines that are ended one by one are joined by line breaks, with nothing behind the last. -/
theorem join_lines (ls : List String) :
    String.join (ls.map (· ++ "\n")) = (String.singleton '\n').intercalate (ls ++ [""]) := by
  induction ls with
  | nil => rfl
  | cons line rest ih =>
      rw [List.map_cons, String.join_cons, ih, List.cons_append,
        String.intercalate_cons_of_ne_nil (by simp)]
      rfl

end Report

end ParamTree
