import ParamTree.Schema.Basic

/-!
# Cells and columns

Help pages and tables place cells in columns. A column is as wide as the longest
of its cells counted in bytes, and a cell is filled up to that many characters,
so no cell is wider than its column.
-/

namespace ParamTree.Report

/-- A cell filled with blanks on the right, to at least `width` characters. -/
def pad (width : Nat) (cell : String) : String :=
  cell ++ String.ofList (List.replicate (width - cell.length) ' ')

/-- The width of a column: its longest cell in bytes. -/
def columnWidth (cells : List String) : Nat := (cells.map String.utf8ByteSize).foldl max 0

/-- A padded cell is as wide as the column, unless the cell itself is wider. -/
theorem length_pad (width : Nat) (cell : String) :
    (pad width cell).length = max width cell.length := by
  simp only [pad, String.length_append, String.length_ofList, List.length_replicate]
  omega

/-- Nothing but spaces fills a cell. -/
theorem pad_eq (width : Nat) (cell : String) :
    ∃ blanks, pad width cell = cell ++ blanks ∧ ∀ c ∈ blanks.toList, c = ' ' := by
  refine ⟨_, rfl, ?_⟩
  intro c hc
  rw [String.toList_ofList] at hc
  exact List.eq_of_mem_replicate hc

/-- The value cell of a flag: its choices or its type, in brackets where the value
may be left out. -/
def valueCell (flag : Flag) : String :=
  let summary :=
    if flag.choices.isEmpty then flag.typeSummary
    else "\x7b" ++ ", ".intercalate flag.choices ++ "\x7d"
  if flag.optionalValue then "[" ++ summary ++ "]" else summary

/-- The tag cell of a flag. -/
def tagCell (flag : Flag) : String := ", ".intercalate flag.tags

end ParamTree.Report
