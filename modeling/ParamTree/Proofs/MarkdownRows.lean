import ParamTree.Proofs.Marks
import ParamTree.Report.FlagTable

/-!
# Rows of a Markdown table

The free texts of a flag are written into its row as they are, so a row is read as it was meant
exactly if these have no mark of their own (`markdown_divided`): no line break, and no pipe that
is not escaped.
-/

namespace ParamTree

/-- The texts of a flag that stand in its row as the document has them. -/
def Flag.texts (f : Flag) : List String :=
  f.choices ++ f.default.toList ++ f.path ++ f.description.toList

namespace Report

open Division

variable {f : Flag} {d : Division}

/-! ## Cells -/

theorem breaks_code {text : String} : d.Breaks (code text).toList ↔ d.Breaks text.toList := by
  have quote : Tidy "`".toList := by simp [Tidy]
  exact breaks_wrapped (quote.plain d) (quote.plain d)

theorem not_breaks_tags (tags : ∀ tag ∈ f.tags, Tidy tag.toList) :
    ¬d.Breaks (", ".intercalate (f.tags.map code)).toList := by
  rw [breaks_commas]
  rintro ⟨text, htext, breaks⟩
  obtain ⟨tag, htag, rfl⟩ := List.mem_map.mp htext
  exact not_breaks_of_plain ((tags tag htag).plain d) (breaks_code.mp breaks)

/-- The marks of a flag's cells are those of its free texts. -/
theorem breaks_markdownCells (tags : ∀ tag ∈ f.tags, Tidy tag.toList)
    (type : Tidy f.typeSummary.toList) :
    (∃ cell ∈ markdownCells f, d.Breaks cell.toList) ↔ ∃ text ∈ f.texts, d.Breaks text.toList := by
  have point : Tidy ".".toList := by simp [Tidy]
  have required : Tidy "required".toList := by simp [Tidy]
  have path : d.Breaks f.dottedPath.toList ↔ ∃ text ∈ f.path, d.Breaks text.toList :=
    breaks_intercalate (by decide) (point.plain d) f.path
  simp only [markdownCells, Flag.texts, List.mem_cons, List.not_mem_nil, or_false, exists_eq_left,
    List.mem_append, or_assoc, or_and_right, exists_or, not_breaks_tags tags, false_or, breaks_code,
    breaks_valueCell type, path]
  refine or_congr Iff.rfl (or_congr ?_ (or_congr Iff.rfl ?_))
  · cases f.default with
    | none => simpa using not_breaks_of_plain (required.plain d)
    | some text => simp [breaks_code]
  · cases f.description with
    | none => simpa using not_breaks_nil
    | some text => simp

/-! ## Rows -/

/-- The parts between the pipes of a row: the cells, each between blanks, and nothing before
the first and after the last pipe. -/
def rowParts (cells : List String) : List String := "" :: cells.map (" " ++ · ++ " ") ++ [""]

/-- A row is its parts joined by pipes. -/
theorem markdownRow_eq {row : List String} (filled : row ≠ []) :
    markdownRow row = (String.singleton '|').intercalate (rowParts row) := by
  have inner : (String.singleton '|').intercalate (row.map (" " ++ · ++ " ") ++ [""]) =
      " " ++ " | ".intercalate row ++ " |" := by
    induction row with
    | nil => exact absurd rfl filled
    | cons cell rest ih =>
        cases rest with
        | nil => simp [String.append_assoc]
        | cons next more =>
            have later := ih (List.cons_ne_nil next more)
            have joint : " | " = " " ++ String.singleton '|' ++ " " := rfl
            rw [List.map_cons, List.cons_append, String.intercalate_cons_of_ne_nil (by simp), later,
              String.intercalate_cons_cons, joint]
            simp only [String.append_assoc]
  have start : "| " = String.singleton '|' ++ " " := rfl
  rw [rowParts, List.cons_append, String.intercalate_cons_of_ne_nil (by simp), inner, markdownRow,
    start, String.empty_append]
  simp only [String.append_assoc]

/-- What holds of all parts of a row holds of its cells between blanks, and of the empty text. -/
theorem forall_mem_rowParts {P : String → Prop} {row : List String} :
    (∀ part ∈ rowParts row, P part) ↔ P "" ∧ ∀ cell ∈ row, P (" " ++ cell ++ " ") := by
  rw [rowParts, List.cons_append, List.forall_mem_cons, List.forall_mem_append, List.forall_mem_map,
    List.forall_mem_singleton]
  constructor
  · rintro ⟨edge, inner, -⟩
    exact ⟨edge, inner⟩
  · rintro ⟨edge, inner⟩
    exact ⟨edge, inner, edge⟩

/-- A row is read as its parts exactly if no cell has a mark. -/
theorem parts_row_iff {row : List String} (filled : row ≠ []) :
    cells.parts (markdownRow row) = rowParts row ↔ ¬∃ cell ∈ row, cells.Breaks cell.toList := by
  have blank : Tidy " ".toList := by simp [Tidy]
  have ends : ∀ part ∈ rowParts row, cells.endsAt part.toList '|' = true := by
    refine forall_mem_rowParts.mpr ⟨rfl, ?_⟩
    intro cell hcell
    simp [endsAt]
  rw [markdownRow_eq filled, parts_intercalate_iff (by simp [rowParts]) ends, forall_mem_rowParts]
  simp only [breaks_wrapped (blank.plain cells) (blank.plain cells), not_exists, not_and]
  exact and_iff_right not_breaks_nil

theorem breaks_row_iff (row : List String) :
    lines.Breaks (markdownRow row).toList ↔ ∃ cell ∈ row, lines.Breaks cell.toList := by
  have joint : ∀ c ∈ " | ".toList, lines.Plain c := by simp [Plain]
  have before : ∀ c ∈ "| ".toList, lines.Plain c := by simp [Plain]
  have after : ∀ c ∈ " |".toList, lines.Plain c := by simp [Plain]
  rw [markdownRow, breaks_wrapped before after, breaks_intercalate (by decide) joint]

/-- The heading, the rule and a row for each flag. -/
theorem markdownTable_eq {flags : List Flag} (filled : flags ≠ []) :
    markdownTable flags =
      markdownRow ["Flag", "Type", "Default", "Parameter", "Description"] ::
        "|------|------|---------|-----------|-------------|" ::
        flags.map fun f => markdownRow (markdownCells f) := by
  rw [markdownTable, if_neg (by simpa using filled)]

/-- A table is read as its lines exactly if no row has a mark. -/
theorem parts_table_iff {flags : List Flag} (filled : flags ≠ []) :
    lines.parts (String.join ((markdownTable flags).map (· ++ "\n"))) = markdownTable flags ++ [""] ↔
      ∀ f ∈ flags, ¬∃ cell ∈ markdownCells f, lines.Breaks cell.toList := by
  have heading : ¬lines.Breaks
      (markdownRow ["Flag", "Type", "Default", "Parameter", "Description"]).toList := by
    simp [breaks_lines_iff, markdownRow]
  have rule : ¬lines.Breaks "|------|------|---------|-----------|-------------|".toList := by
    simp [breaks_lines_iff]
  have ends : ∀ line ∈ markdownTable flags ++ [""], lines.endsAt line.toList '\n' = true :=
    fun _ _ => rfl
  rw [join_lines, parts_intercalate_iff (by simp) ends, List.forall_mem_append,
    List.forall_mem_singleton, markdownTable_eq filled, List.forall_mem_cons, List.forall_mem_cons,
    List.forall_mem_map]
  simp only [breaks_row_iff, heading, rule, not_false_eq_true, true_and]
  exact and_iff_left not_breaks_nil

/-- **A Markdown table, read back.** The page of a schema with visible flags ends with a table of
a heading, a rule and a row for each flag. Its lines are these exactly if no free text of a flag
has a line break. The parts of a row are the five cells of its flag exactly if no free text of
the flag has a pipe that is not escaped. -/
theorem markdown_divided {s : Schema} (built : s.Built) (level : Option Nat)
    (filled : s.flags.visible (level.getD Schema.maxLevel) ≠ []) :
    let shown := s.flags.visible (level.getD Schema.maxLevel)
    let table := String.join ((markdownTable shown).map (· ++ "\n"))
    (∃ intro, formatFlags s level .markdown = intro ++ table ++ "\n") ∧
    markdownTable shown =
      markdownRow ["Flag", "Type", "Default", "Parameter", "Description"] ::
        "|------|------|---------|-----------|-------------|" ::
        shown.map (fun f => markdownRow (markdownCells f)) ∧
    (lines.parts table = markdownTable shown ++ [""] ↔
      ∀ f ∈ shown, ∀ text ∈ f.texts, '\n' ∉ text.toList) ∧
    ∀ f ∈ shown, cells.parts (markdownRow (markdownCells f)) = rowParts (markdownCells f) ↔
      ∀ text ∈ f.texts, ¬cells.Breaks text.toList := by
  intro shown table
  have marks (d : Division) (f : Flag) (hf : f ∈ shown) :
      (∃ cell ∈ markdownCells f, d.Breaks cell.toList) ↔ ∃ text ∈ f.texts, d.Breaks text.toList := by
    have hmem := List.mem_of_mem_filter hf
    exact breaks_markdownCells (fun tag => built.tags_tidy hmem) (built.summary_tidy hmem)
  refine ⟨?_, markdownTable_eq filled, ?_, ?_⟩
  · have some : (markdownTable shown).isEmpty = false := by
      rw [markdownTable_eq filled, List.isEmpty_cons]
    show ∃ intro, markdown s shown = intro ++ table ++ "\n"
    unfold markdown
    simp only [some, Bool.false_eq_true, if_false]
    exact ⟨_, (String.append_assoc ..).symm⟩
  · refine (parts_table_iff filled).trans (forall₂_congr fun f hf => ?_)
    rw [marks lines f hf]
    simp only [breaks_lines_iff, not_exists, not_and]
  · intro f hf
    rw [parts_row_iff (by simp [markdownCells]), marks cells f hf]
    simp only [not_exists, not_and]

/-- A document with one flag and its description. -/
def noteDocument (description : String) : Value :=
  .object [("properties", .object [("x", .object [
    ("type", .string "string"), ("description", .string description)])])]

/-- The node of the flag. -/
def noteNode (description : String) : Node :=
  .scalar { description := some description } (.typed .string) none

/-- The flag. -/
def noteFlag (description : String) : Flag where
  name := "x"
  aliases := []
  path := ["x"]
  typeSummary := "str"
  variadic := false
  optionalValue := false
  default := none
  choices := []
  helpLevel := 0
  description := some description

/-- The schema of the document. -/
def noteSchema (description : String) : Schema :=
  ⟨none, none, .object {} [("x", noteNode description)], ⟨[noteFlag description]⟩⟩

theorem noteSchema_built (description : String) : (noteSchema description).Built := by
  refine ⟨noteDocument description, ?_, ?_⟩
  · simp [noteDocument, Value.WellFormed, Value.WellFormedEntries]
  · cbv

/-- A description with an escaped pipe stands in its cell. -/
theorem markdown_divided_note :
    let note := "one \\| two"
    (noteSchema note).Built ∧ (noteSchema note).flags.visible Schema.maxLevel ≠ [] ∧
      cells.parts (markdownRow (markdownCells (noteFlag note))) = rowParts (markdownCells (noteFlag note)) := by
  intro note
  have filled : (noteSchema note).flags.visible Schema.maxLevel ≠ [] := List.cons_ne_nil _ _
  obtain ⟨-, -, -, row⟩ := markdown_divided (noteSchema_built note) none filled
  have whole : ∀ text ∈ (noteFlag note).texts, ¬cells.Breaks text.toList := by decide +kernel
  exact ⟨noteSchema_built note, filled, (row (noteFlag note) List.mem_cons_self).mpr whole⟩

/-- A line break in a description tears its row, and a pipe its cell. -/
theorem markdown_row_torn :
    (noteSchema "one\ntwo").Built ∧ (noteSchema "one\ntwo").flags.flags = [noteFlag "one\ntwo"] ∧
    lines.parts (formatFlags (noteSchema "one\ntwo") none .markdown) =
      ["| Flag | Type | Default | Parameter | Description |",
       "|------|------|---------|-----------|-------------|",
       "| `--x` | `str` | required | `x` | one",
       "two |", "", ""] ∧
    (noteSchema "one | two").Built ∧ (noteSchema "one | two").flags.flags = [noteFlag "one | two"] ∧
    ((lines.parts (formatFlags (noteSchema "one | two") none .markdown))[2]?).map cells.parts =
      some ["", " `--x` ", " `str` ", " required ", " `x` ", " one ", " two ", ""] :=
  ⟨noteSchema_built _, rfl, by decide +kernel, noteSchema_built _, rfl, by decide +kernel⟩

end Report

end ParamTree
