import Mathlib
import ParamTree.Proofs.Flags
import ParamTree.Report.FlagTable
import ParamTree.Report.Help

/-!
# Aligned columns

A column is as wide as its longest cell has bytes, and a cell is filled up to that many
characters. A character takes at least one byte, so every cell fits its column
(`length_le_columnWidth`) and is filled to exactly its width. The place of a column in a row
is then a sum of widths, the same in all rows (`inColumn_intercalate`).
-/

namespace ParamTree.Report

/-- Is the cell in the column that starts `offset` characters into the row and is `width`
characters wide? It stands at the start, and blanks fill the rest of the column. -/
def InColumn (row cell : String) (offset width : Nat) : Prop :=
  ∃ before blanks after, row = before ++ cell ++ blanks ++ after ∧ before.length = offset ∧
    cell.length + blanks.length = width ∧ ∀ c ∈ blanks.toList, c = ' '

/-- Where a column starts: after the columns before it, each with a gap of two. -/
def columnOffset (widths : List Nat) (j : Nat) : Nat := ((widths.take j).map (· + 2)).sum

theorem columnOffset_succ (width : Nat) (widths : List Nat) (j : Nat) :
    columnOffset (width :: widths) (j + 1) = width + 2 + columnOffset widths j := by
  rw [columnOffset, List.take_succ_cons, List.map_cons, List.sum_cons, columnOffset]

/-! ## Widths -/

theorem length_le_utf8ByteSize (s : String) : s.length ≤ s.utf8ByteSize := by
  rw [← String.length_toList, ← String.utf8Len_toList]
  induction s.toList with
  | nil => rfl
  | cons c cs ih =>
      have := Char.utf8Size_pos c
      rw [List.length_cons, String.utf8Len_cons]
      omega

/-- No cell has more characters than its column is wide. -/
theorem length_le_columnWidth {cells : List String} {cell : String} (h : cell ∈ cells) :
    cell.length ≤ columnWidth cells := by
  rw [columnWidth, List.foldl_max, Nat.zero_max]
  exact (length_le_utf8ByteSize cell).trans (List.le_max?_getD_of_mem (List.mem_map_of_mem h))

/-! ## Places -/

variable {row cell : String} {offset width : Nat} {widths : List Nat} {cells : List String}

/-- A cell that fits its column fills it. -/
theorem inColumn_pad (fits : cell.length ≤ width) (before after : String) :
    InColumn (before ++ pad width cell ++ after) cell before.length width := by
  obtain ⟨blanks, filled, spaces⟩ := pad_eq width cell
  have long := length_pad width cell
  rw [filled, String.length_append] at long
  refine ⟨before, blanks, after, ?_, rfl, ?_, spaces⟩
  · rw [filled, ← String.append_assoc]
  · omega

/-- What stands before a row moves its columns. -/
theorem InColumn.after (h : InColumn row cell offset width) (lead : String) :
    InColumn (lead ++ row) cell (lead.length + offset) width := by
  obtain ⟨before, blanks, after, rfl, rfl, filled, blank⟩ := h
  refine ⟨lead ++ before, blanks, after, ?_, String.length_append .., filled, blank⟩
  simp only [String.append_assoc]

/-- A cell that ends in no blank stays in its place when the row is printed, without the blanks
at its end. -/
theorem InColumn.printed (h : InColumn row cell offset width) {start : List Char} {c : Char}
    (ends : cell.toList = start ++ [c]) (solid : Text.isBlank c = false) :
    ∃ before after, Text.trimEnd row = before ++ cell ++ after ∧ before.length = offset := by
  obtain ⟨before, blanks, after, rfl, place, -, -⟩ := h
  refine ⟨before, String.ofList (Text.dropTrailing (blanks ++ after).toList), ?_, place⟩
  have split : (before ++ cell ++ blanks ++ after).toList =
      (before.toList ++ start) ++ c :: (blanks ++ after).toList := by
    simp [ends]
  rw [← String.toList_inj, Text.toList_trimEnd, split, Text.dropTrailing_append_cons solid]
  simp [ends]

/-- Padded cells with a gap of two between them are in their columns. -/
theorem inColumn_intercalate (fit : List.Forall₂ (fun width cell => String.length cell ≤ width) widths cells)
    {j : Nat} (hcell : cells[j]? = some cell) :
    ∃ width, widths[j]? = some width ∧
      InColumn ("  ".intercalate (List.zipWith pad widths cells)) cell (columnOffset widths j) width := by
  induction fit generalizing j with
  | nil => cases hcell
  | @cons width first widths cells fits rest ih =>
      cases j with
      | zero =>
          obtain rfl : first = cell := Option.some.inj hcell
          refine ⟨width, rfl, ?_⟩
          cases rest with
          | nil => simpa [columnOffset] using inColumn_pad fits "" ""
          | cons =>
              rw [List.zipWith_cons_cons, List.zipWith_cons_cons, String.intercalate_cons_cons]
              simpa [columnOffset, String.append_assoc] using inColumn_pad fits "" _
      | succ j =>
          obtain ⟨later, hlater, place⟩ := ih hcell
          refine ⟨later, hlater, ?_⟩
          cases rest with
          | nil => cases hcell
          | cons =>
              have moved := place.after (pad width first ++ "  ")
              rw [String.length_append, length_pad, Nat.max_eq_left fits] at moved
              rw [List.zipWith_cons_cons, List.zipWith_cons_cons, String.intercalate_cons_cons,
                columnOffset_succ]
              exact moved

/-! ## Tables and help pages -/

/-- The columns of the flag table are wide enough for its rows. -/
theorem tableWidths_fit {rows : List TableRow} {row : TableRow} (h : row ∈ rows) :
    List.Forall₂ (fun width cell => String.length cell ≤ width) (tableWidths rows) row.cells := by
  refine .cons ?_ (.cons ?_ (.cons ?_ (.cons ?_ .nil)))
  · exact length_le_columnWidth (List.mem_map_of_mem (f := TableRow.flag) h)
  · exact length_le_columnWidth (List.mem_map_of_mem (f := TableRow.type) h)
  · exact length_le_columnWidth (List.mem_map_of_mem (f := TableRow.parameter) h)
  · exact length_le_columnWidth (List.mem_map_of_mem (f := TableRow.default) h)

/-- The cells of a help row are in its columns, and the description stands behind them. -/
theorem inColumn_alignedRow {tagWidth valueWidth : Nat} {tags value : String}
    (tagsFit : tags.length ≤ tagWidth) (valueFits : value.length ≤ valueWidth) (description : String) :
    InColumn (alignedRow tagWidth valueWidth tags value description) tags 2 tagWidth ∧
      InColumn (alignedRow tagWidth valueWidth tags value description) value (tagWidth + 4) valueWidth ∧
      ∃ before, alignedRow tagWidth valueWidth tags value description = before ++ description ∧
        before.length = tagWidth + valueWidth + 6 := by
  have gap : "  ".length = 2 := rfl
  refine ⟨?_, ?_, _, rfl, ?_⟩
  · have place := inColumn_pad tagsFit "  " ("  " ++ pad valueWidth value ++ "  " ++ description)
    simpa only [alignedRow, String.append_assoc, gap] using place
  · have place := inColumn_pad valueFits ("  " ++ pad tagWidth tags ++ "  ") ("  " ++ description)
    have start : ("  " ++ pad tagWidth tags ++ "  ").length = tagWidth + 4 := by
      simp only [String.length_append, length_pad, gap]
      omega
    rw [start] at place
    simpa only [alignedRow, String.append_assoc] using place
  · simp only [String.length_append, length_pad, gap]
    omega

/-- **Columns are aligned.** In the flag table the `j`-th cells of all rows, the heading among
them, are in one column, and on a help page the tags, the values and the descriptions are,
whatever characters they have. Only then are the blanks at the ends of the rows dropped. -/
theorem columns_aligned (s : Schema) (shown : Option Nat) (level : Nat) (command : Option String) :
    (let rows := tableHeader :: (s.flags.visible (shown.getD Schema.maxLevel)).map tableRow
      ∃ widths,
        formatFlags s shown .table =
          String.join (rows.map fun row => Text.trimEnd (alignedTableRow widths row) ++ "\n") ∧
        ∀ j cell row, row ∈ rows → row.cells[j]? = some cell → ∃ width, widths[j]? = some width ∧
          InColumn (alignedTableRow widths row) cell (columnOffset widths j) width) ∧
    ∃ tagWidth valueWidth,
      renderHelp s level command = helpIntro s command ++
        String.join ((helpLines s level).map (renderLine tagWidth valueWidth)) ∧
      ∀ tags value description, .row tags value description ∈ helpLines s level →
        let row := alignedRow tagWidth valueWidth tags value description
        renderLine tagWidth valueWidth (.row tags value description) = Text.trimEnd row ++ "\n" ∧
        InColumn row tags 2 tagWidth ∧ InColumn row value (tagWidth + 4) valueWidth ∧
        ∃ before, row = before ++ description ∧ before.length = tagWidth + valueWidth + 6 := by
  constructor
  · intro rows
    refine ⟨tableWidths rows, rfl, ?_⟩
    intro j cell row hrow hcell
    exact inColumn_intercalate (tableWidths_fit hrow) hcell
  · refine ⟨_, _, rfl, ?_⟩
    intro tags value description hrow
    have tagsIn : tags ∈ tagColumn (helpLines s level) := List.mem_filterMap.mpr ⟨_, hrow, rfl⟩
    have valueIn : value ∈ valueColumn (helpLines s level) := List.mem_filterMap.mpr ⟨_, hrow, rfl⟩
    exact ⟨rfl, inColumn_alignedRow (length_le_columnWidth tagsIn) (length_le_columnWidth valueIn)
      description⟩

/-- A document with texts that have more bytes than characters. -/
def toneDocument : Value :=
  .object [("properties", .object [("tone", .object [
    ("enum", .array [.string "né", .string "ü"]), ("default", .string "né"),
    ("x-alias", .string "-t")])])]

/-- The node of its property. -/
def toneNode : Node :=
  .scalar { default := some (.string "né"), aliases := ["-t"] } .any
    (some [.string "né", .string "ü"])

/-- The flag of the property. -/
def toneFlag : Flag where
  name := "tone"
  aliases := ["-t"]
  path := ["tone"]
  typeSummary := "any"
  variadic := false
  optionalValue := false
  default := some "né"
  choices := ["né", "ü"]
  helpLevel := 0
  description := none

/-- The schema of the document. -/
def toneSchema : Schema := ⟨none, none, .object {} [("tone", toneNode)], ⟨[toneFlag]⟩⟩

theorem toneSchema_built : toneSchema.Built := by
  refine ⟨toneDocument, ?_, ?_⟩
  · simp [toneDocument, Value.WellFormed, Value.WellFormedEntries, Value.WellFormedItems]
  · cbv

/-- A default with a letter of two bytes stands in the column of its heading, also when it is
printed. -/
theorem columns_aligned_tones :
    toneSchema.Built ∧ ∃ widths width,
      formatFlags toneSchema none .table = String.join
        ([tableHeader, tableRow toneFlag].map fun row =>
          Text.trimEnd (alignedTableRow widths row) ++ "\n") ∧
      InColumn (alignedTableRow widths tableHeader) "DEFAULT" (columnOffset widths 3) width ∧
      InColumn (alignedTableRow widths (tableRow toneFlag)) "né" (columnOffset widths 3) width ∧
      ∃ before after, Text.trimEnd (alignedTableRow widths (tableRow toneFlag)) =
        before ++ "né" ++ after ∧ before.length = columnOffset widths 3 := by
  obtain ⟨⟨widths, text, places⟩, -⟩ := columns_aligned toneSchema none 0 none
  obtain ⟨width, hwidth, heading⟩ := places 3 "DEFAULT" tableHeader List.mem_cons_self rfl
  obtain ⟨other, hother, value⟩ :=
    places 3 "né" (tableRow toneFlag) (List.mem_cons_of_mem _ List.mem_cons_self) rfl
  rw [hwidth] at hother
  obtain rfl := Option.some.inj hother
  have ends : "né".toList = ['n'] ++ ['é'] := by simp
  exact ⟨toneSchema_built, widths, width, text, heading, value, value.printed ends rfl⟩

end ParamTree.Report
