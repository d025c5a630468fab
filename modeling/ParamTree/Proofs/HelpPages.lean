import ParamTree.Proofs.Grouping
import ParamTree.Proofs.Marks

/-!
# Help pages as they are read

The lines of a help page are known before they are printed (`helpLines_grouped`): rows and
headings. Printed, a heading is a line of its own below an empty one, and a row is a line with
the tags, the value and the description of its flag (`isRow_rowText`). The page is then read as
these lines exactly if nothing that is printed as the document has it breaks a line
(`renderHelp_grouped`). Descriptions never do, as their blanks are collapsed.
-/

namespace ParamTree.Report

open Division

/-! ## What is printed -/

/-- The heading of a section: the description of its property or else the name, and `Options`
for flags of the root. -/
def Section.title (schema : Schema) (part : Section) : String :=
  match part.group with
  | some name => ((schema.root.property? name).bind (·.attrs.description)).getD name
  | none => "Options"

/-- The lines of text of a section whose flags have the given rows. -/
def Section.text (schema : Schema) (row : Flag → String) (part : Section) : List String :=
  "" :: (part.title schema ++ ":") :: part.flags.map row

/-- Is the line the row of the flag? The tags, the value and the description stand in it in
this order with blanks between them; blanks at its end may be left out. -/
def IsRow (f : Flag) (line : String) : Prop :=
  ∃ gap gap' rest, line ++ rest =
      "  " ++ ", ".intercalate f.tags ++ gap ++ valueCell f ++ gap' ++ descriptionCell f ∧
    ∀ c ∈ (gap ++ gap' ++ rest).toList, Text.isBlank c = true

/-- The lines above the flags: the command and the title, then the description. -/
def introLines (schema : Schema) (command : Option String) : List String :=
  (match command, schema.title with
    | some command, some title => [command ++ ": " ++ title]
    | some command, none => [command]
    | none, some title => [title]
    | none, none => []) ++
  (match schema.description with
    | some d => ["    " ++ Text.collapse d]
    | none => [])

/-- The texts of a page that stand on it as they are given, line breaks included. -/
def givenTexts (schema : Schema) (command : Option String) (sections : List Section)
    (shown : List Flag) : List String :=
  command.toList ++ schema.title.toList ++ sections.map (Section.title schema) ++
    shown.flatMap fun f => f.choices ++ f.default.toList

/-- The lines of text of a line: a heading has an empty line before it. -/
def HelpLine.texts (tagWidth valueWidth : Nat) : HelpLine → List String
  | .heading title => ["", title ++ ":"]
  | .row tags value description =>
      [Text.trimEnd (alignedRow tagWidth valueWidth tags value description)]

/-- The row of a flag in columns of the given widths. -/
def rowText (tagWidth valueWidth : Nat) (f : Flag) : String :=
  Text.trimEnd (alignedRow tagWidth valueWidth (tagCell f) (valueCell f) (descriptionCell f))

variable {s : Schema} {f : Flag} {tagWidth valueWidth : Nat} {front : List Flag}
  {sections : List Section}

theorem join_rendered (ls : List HelpLine) :
    String.join (ls.map (renderLine tagWidth valueWidth)) =
      String.join ((ls.flatMap (HelpLine.texts tagWidth valueWidth)).map (· ++ "\n")) := by
  induction ls with
  | nil => rfl
  | cons line rest ih =>
      rw [List.map_cons, String.join_cons, ih, List.flatMap_cons, List.map_append,
        String.join_append]
      cases line with
      | heading title => simp [renderLine, HelpLine.texts, String.append_assoc]
      | row tags value description => simp [renderLine, HelpLine.texts]

theorem helpIntro_eq (s : Schema) (command : Option String) :
    helpIntro s command = String.join ((introLines s command).map (· ++ "\n")) := by
  unfold helpIntro introLines
  cases command <;> cases s.title <;> cases s.description <;> simp

theorem title_eq (part : Section) : part.title s = groupHeading s part.group := by
  rw [Section.title]
  cases part.group with
  | none => rfl
  | some name => rfl

/-- The texts of rows and sections are those of their lines. -/
theorem flatMap_texts :
    (front.map flagRow ++ sections.flatMap (Section.lines s)).flatMap
        (HelpLine.texts tagWidth valueWidth) =
      front.map (rowText tagWidth valueWidth) ++
        sections.flatMap (Section.text s (rowText tagWidth valueWidth)) := by
  have rows (flags : List Flag) : (flags.map flagRow).flatMap (HelpLine.texts tagWidth valueWidth) =
      flags.map (rowText tagWidth valueWidth) := by
    rw [List.flatMap_map, List.map_eq_flatMap]
    rfl
  rw [List.flatMap_append, rows, List.flatMap_assoc]
  congr 2
  funext part
  rw [Section.lines, List.flatMap_cons, rows, Section.text, title_eq]
  rfl

/-- The cells of a row stand in it with nothing but spaces between them. -/
theorem alignedRow_eq (tagWidth valueWidth : Nat) (tags value description : String) :
    ∃ gap gap', alignedRow tagWidth valueWidth tags value description =
        "  " ++ tags ++ gap ++ value ++ gap' ++ description ∧
      (∀ c ∈ gap.toList, c = ' ') ∧ ∀ c ∈ gap'.toList, c = ' ' := by
  obtain ⟨behindTags, padTags, tagSpaces⟩ := pad_eq tagWidth tags
  obtain ⟨behindValue, padValue, valueSpaces⟩ := pad_eq valueWidth value
  have two : ∀ c ∈ "  ".toList, c = ' ' := by simp
  refine ⟨behindTags ++ "  ", behindValue ++ "  ", ?_, ?_, ?_⟩
  · simp only [alignedRow, padTags, padValue, String.append_assoc]
  · rw [String.toList_append, List.forall_mem_append]
    exact ⟨tagSpaces, two⟩
  · rw [String.toList_append, List.forall_mem_append]
    exact ⟨valueSpaces, two⟩

/-- A printed row has the cells of its flag. -/
theorem isRow_rowText (tagWidth valueWidth : Nat) (f : Flag) :
    IsRow f (rowText tagWidth valueWidth f) := by
  obtain ⟨gap, gap', row, spaces, spaces'⟩ :=
    alignedRow_eq tagWidth valueWidth (tagCell f) (valueCell f) (descriptionCell f)
  obtain ⟨rest, split, blank⟩ := Text.trimEnd_append_blanks
    (alignedRow tagWidth valueWidth (tagCell f) (valueCell f) (descriptionCell f))
  have space : Text.isBlank ' ' = true := rfl
  refine ⟨gap, gap', rest, ?_, ?_⟩
  · rw [rowText, ← split, row, tagCell]
  · rw [String.toList_append, String.toList_append, List.forall_mem_append, List.forall_mem_append]
    exact ⟨⟨fun c hc => spaces c hc ▸ space, fun c hc => spaces' c hc ▸ space⟩, blank⟩

/-! ## Where lines break -/

/-- Is there a character that is no blank behind the last line break of the text? -/
def Sealed (text : List Char) : Prop :=
  '\n' ∈ text → ∃ before c after, text = before ++ c :: after ∧ Text.isBlank c = false ∧ '\n' ∉ after

theorem sealed_of_unbroken {text : List Char} (h : '\n' ∉ text) : Sealed text :=
  fun broken => absurd broken h

theorem sealed_concat {c : Char} (solid : Text.isBlank c = false) (text : List Char) :
    Sealed (text ++ [c]) := fun _ => ⟨text, c, [], rfl, solid, List.not_mem_nil⟩

theorem Sealed.append {x y : List Char} (hx : Sealed x) (hy : Sealed y) : Sealed (x ++ y) := by
  intro broken
  by_cases later : '\n' ∈ y
  · obtain ⟨before, c, after, rfl, solid, whole⟩ := hy later
    exact ⟨x ++ before, c, after, (List.append_assoc ..).symm, solid, whole⟩
  · have earlier : '\n' ∈ x := (List.mem_append.mp broken).resolve_right later
    obtain ⟨before, c, after, rfl, solid, whole⟩ := hx earlier
    refine ⟨before, c, after ++ y, by simp, solid, ?_⟩
    exact fun h => (List.mem_append.mp h).elim whole later

/-- No line break of such a text is trimmed. -/
theorem Sealed.mem_trimEnd {text : String} (h : Sealed text.toList) :
    '\n' ∈ (Text.trimEnd text).toList ↔ '\n' ∈ text.toList := by
  rw [Text.toList_trimEnd]
  constructor
  · intro broken
    obtain ⟨blanks, split, -⟩ := Text.dropTrailing_append_blanks text.toList
    rw [split]
    exact List.mem_append_left blanks broken
  · intro broken
    obtain ⟨before, c, after, split, solid, whole⟩ := h broken
    rw [split] at broken ⊢
    rw [Text.dropTrailing_append_cons solid]
    -- what is left behind the last solid character has no line break
    rw [List.append_cons, List.mem_append] at broken ⊢
    exact .inl (broken.resolve_right whole)

/-- Collapsed blanks leave no line break. -/
theorem newline_not_mem_collapse (text : String) : '\n' ∉ (Text.collapse text).toList := by
  have space : ∀ c ∈ " ".toList, lines.Plain c := by simp [Plain]
  rw [← breaks_lines_iff, Text.collapse, breaks_intercalate (by decide) space]
  rintro ⟨word, hword, breaks⟩
  have blank : Text.isBlank '\n' = true := rfl
  have solid := Text.words_blankFree text word hword '\n' (breaks_lines_iff.mp breaks)
  rw [blank] at solid
  cases solid

theorem sealed_valueCell (type : Tidy f.typeSummary.toList) : Sealed (valueCell f).toList := by
  rw [valueCell]
  split
  · rw [String.toList_append]
    exact sealed_concat rfl _
  · split
    · exact sealed_of_unbroken fun h => (type '\n' h).1 rfl
    · rw [String.toList_append]
      exact sealed_concat rfl _

/-- The description is collapsed, and the default stands behind it in brackets. -/
theorem descriptionCell_eq (f : Flag) : ∃ lead : String, '\n' ∉ lead.toList ∧
    descriptionCell f = lead ++ match f.default with
      | some text => "(default: " ++ text ++ ")"
      | none => "" := by
  unfold descriptionCell
  rcases f.description with _ | d <;> rcases f.default with _ | text
  · exact ⟨"", List.not_mem_nil, rfl⟩
  · exact ⟨"", List.not_mem_nil, String.append_assoc ..⟩
  · exact ⟨Text.collapse d, newline_not_mem_collapse d, String.append_empty.symm⟩
  · refine ⟨if (Text.collapse d).isEmpty then "" else Text.collapse d ++ " ", ?_, ?_⟩
    · split
      · exact List.not_mem_nil
      · simp [newline_not_mem_collapse d]
    · simp only [String.append_assoc]

theorem sealed_descriptionCell (f : Flag) : Sealed (descriptionCell f).toList := by
  obtain ⟨lead, whole, cell⟩ := descriptionCell_eq f
  rw [cell, String.toList_append]
  refine (sealed_of_unbroken whole).append ?_
  split
  · rw [String.toList_append]
    exact sealed_concat rfl _
  · exact sealed_of_unbroken (by simp)

theorem newline_mem_descriptionCell :
    '\n' ∈ (descriptionCell f).toList ↔ ∃ text ∈ f.default.toList, '\n' ∈ text.toList := by
  obtain ⟨lead, whole, cell⟩ := descriptionCell_eq f
  rw [cell]
  cases f.default <;> simp [whole]

theorem newline_not_mem_tagCell (tags : ∀ tag ∈ f.tags, Tidy tag.toList) :
    '\n' ∉ (tagCell f).toList := by
  rw [← breaks_lines_iff, tagCell, breaks_commas]
  rintro ⟨tag, htag, breaks⟩
  exact not_breaks_of_plain ((tags tag htag).plain lines) breaks

theorem newline_not_mem_spaces {spaces : String} (h : ∀ c ∈ spaces.toList, c = ' ') :
    '\n' ∉ spaces.toList := fun broken => absurd (h '\n' broken) (by decide)

/-- A row breaks where a choice or the default does. -/
theorem newline_mem_rowText (tags : ∀ tag ∈ f.tags, Tidy tag.toList)
    (type : Tidy f.typeSummary.toList) :
    '\n' ∈ (rowText tagWidth valueWidth f).toList ↔
      ∃ text ∈ f.choices ++ f.default.toList, '\n' ∈ text.toList := by
  obtain ⟨gap, gap', row, spaces, spaces'⟩ :=
    alignedRow_eq tagWidth valueWidth (tagCell f) (valueCell f) (descriptionCell f)
  have unbroken := newline_not_mem_spaces spaces
  have unbroken' := newline_not_mem_spaces spaces'
  have before : Sealed ("  " ++ tagCell f ++ gap).toList := by
    refine sealed_of_unbroken ?_
    simp [newline_not_mem_tagCell tags, unbroken]
  have choices : '\n' ∈ (valueCell f).toList ↔ ∃ text ∈ f.choices, '\n' ∈ text.toList := by
    simpa only [breaks_lines_iff] using breaks_valueCell (d := lines) type
  -- what is trimmed stands behind the last line break
  have whole : Sealed ("  " ++ tagCell f ++ gap ++ valueCell f ++ gap' ++ descriptionCell f).toList := by
    rw [String.toList_append, String.toList_append, String.toList_append]
    exact ((before.append (sealed_valueCell type)).append (sealed_of_unbroken unbroken')).append
      (sealed_descriptionCell f)
  rw [rowText, row, whole.mem_trimEnd]
  simp [newline_not_mem_tagCell tags, unbroken, unbroken', choices, newline_mem_descriptionCell,
    or_and_right, exists_or]

/-- The row of the help request does not break. -/
theorem helpRow_unbroken (maxLevel : Nat) :
    ∃ value description, helpRow maxLevel = .row "-h, --help" value description ∧
      '\n' ∉ value.toList ∧ '\n' ∉ description.toList := by
  have levels (n : Nat) : '\n' ∉
      (", ".intercalate ((List.range n).map fun i => toString (i + 1))).toList := by
    rw [← breaks_lines_iff, breaks_commas]
    rintro ⟨text, htext, breaks⟩
    obtain ⟨i, -, rfl⟩ := List.mem_map.mp htext
    have digit := Nat.isDigit_of_mem_toDigits (by decide) (by decide)
      (Nat.toList_repr ▸ breaks_lines_iff.mp breaks)
    cases digit
  unfold helpRow
  split
  · exact ⟨_, _, rfl, by simp, by simp⟩
  · exact ⟨_, _, rfl, by simp, by simp⟩
  · refine ⟨_, _, rfl, by simp, ?_⟩
    rw [← breaks_lines_iff, breaks_wrapped (by simp [Plain]) (by simp [Plain]), breaks_lines_iff]
    exact levels maxLevel

/-- The row of the help request is one line. -/
theorem helpRow_text (tagWidth valueWidth maxLevel : Nat) :
    ∃ request, (helpRow maxLevel).texts tagWidth valueWidth = [request] ∧
      "  -h, --help".toList <+: request.toList ∧ '\n' ∉ request.toList := by
  obtain ⟨value, description, request, hvalue, hdescription⟩ := helpRow_unbroken maxLevel
  obtain ⟨gap, gap', row, spaces, spaces'⟩ :=
    alignedRow_eq tagWidth valueWidth "-h, --help" value description
  refine ⟨_, by rw [request]; rfl, ?_, ?_⟩
  · have split : ("  " ++ "-h, --help" ++ gap ++ value ++ gap' ++ description).toList =
        "  -h, --hel".toList ++ 'p' :: (gap ++ value ++ gap' ++ description).toList := by
      simp
    have named : "  -h, --help".toList = "  -h, --hel".toList ++ ['p'] := by simp
    rw [named, Text.toList_trimEnd, row, split, Text.dropTrailing_append_cons rfl, List.append_cons]
    exact List.prefix_append _ _
  · have whole : '\n' ∉ (alignedRow tagWidth valueWidth "-h, --help" value description).toList := by
      simp [row, hvalue, hdescription, newline_not_mem_spaces spaces, newline_not_mem_spaces spaces']
    rwa [(sealed_of_unbroken whole).mem_trimEnd]

/-- The lines above the flags break where the command or the title does. -/
theorem unbroken_introLines (s : Schema) (command : Option String) :
    (∀ line ∈ introLines s command, '\n' ∉ line.toList) ↔
      ∀ text ∈ command.toList ++ s.title.toList, '\n' ∉ text.toList := by
  unfold introLines
  cases command <;> cases s.title <;> cases s.description <;> simp [newline_not_mem_collapse]

/-- The rows of a built schema break where a choice or a default does. -/
theorem unbroken_rows (built : s.Built) (tagWidth valueWidth : Nat) {flags : List Flag}
    (h : ∀ f ∈ flags, f ∈ s.flags.flags) :
    (∀ line ∈ flags.map (rowText tagWidth valueWidth), '\n' ∉ line.toList) ↔
      ∀ text ∈ flags.flatMap (fun f => f.choices ++ f.default.toList), '\n' ∉ text.toList := by
  rw [List.forall_mem_map, List.forall_mem_flatMap]
  refine forall₂_congr fun f hf => ?_
  rw [newline_mem_rowText (fun tag => built.tags_tidy (h f hf)) (built.summary_tidy (h f hf))]
  simp only [not_exists, not_and]

/-- Sections break where a heading or a row does. -/
theorem unbroken_sections (row : Flag → String) :
    (∀ line ∈ sections.flatMap (Section.text s row), '\n' ∉ line.toList) ↔
      (∀ text ∈ sections.map (Section.title s), '\n' ∉ text.toList) ∧
        ∀ line ∈ (sections.flatMap Section.flags).map row, '\n' ∉ line.toList := by
  have heading (title : String) : '\n' ∉ (title ++ ":").toList ↔ '\n' ∉ title.toList := by simp
  simp only [Section.text, List.forall_mem_flatMap, List.forall_mem_map, List.forall_mem_cons,
    heading, String.toList_empty, List.not_mem_nil, not_false_eq_true, true_and, forall_and]

/-- A page has the line breaks of the texts that are given for it. -/
theorem unbroken_page (built : s.Built) (command : Option String) {request : String}
    (whole : '\n' ∉ request.toList)
    (known : ∀ f ∈ front ++ sections.flatMap Section.flags, f ∈ s.flags.flags) :
    (∀ line ∈ introLines s command ++ front.map (rowText tagWidth valueWidth) ++
        sections.flatMap (Section.text s (rowText tagWidth valueWidth)) ++
        ["", "Display help:", request], '\n' ∉ line.toList) ↔
      ∀ text ∈ givenTexts s command sections (front ++ sections.flatMap Section.flags),
        '\n' ∉ text.toList := by
  obtain ⟨knownFront, knownBelow⟩ := List.forall_mem_append.mp known
  have help : ∀ line ∈ ["", "Display help:", request], '\n' ∉ line.toList := by simp [whole]
  rw [givenTexts, List.flatMap_append]
  simp only [List.forall_mem_append, unbroken_introLines, unbroken_sections,
    unbroken_rows built tagWidth valueWidth knownFront,
    unbroken_rows built tagWidth valueWidth knownBelow]
  tauto

/-! ## Reading a page -/

/-- **A help page groups its flags.** Its lines of text are those above the flags, a row for
each flag up to the level, in the order of the schema, and the row of the help request. The
first rows, without a heading, and those under `Options` are of properties of the root. A
property of the root with such flags below it has one section, headed by its description or
name, and the rows of the section are those of all these flags. The page is read as these lines
exactly if no line breaks within the command, the title, a heading, a choice or a default. -/
theorem renderHelp_grouped {s : Schema} (built : s.Built) (level : Nat) (command : Option String) :
    let shown := s.flags.flags.filter (·.helpLevel ≤ level)
    ∃ (row : Flag → String) (request : String) (front : List Flag) (sections : List Section),
      let page := introLines s command ++ front.map row ++ sections.flatMap (Section.text s row) ++
        ["", "Display help:", request]
      renderHelp s level command = String.join (page.map (· ++ "\n")) ∧
      (lines.parts (renderHelp s level command) = page ++ [""] ↔
        ∀ text ∈ givenTexts s command sections shown, '\n' ∉ text.toList) ∧
      (∀ f ∈ shown, IsRow f (row f)) ∧ "  -h, --help".toList <+: request.toList ∧
      front ++ sections.flatMap Section.flags = shown ∧
      (∀ f ∈ front, f.group = none) ∧ (∀ part ∈ sections, part.Uniform) ∧
      (∀ f ∈ shown, f.group = none → f ∈ front ∨
        ∃ part ∈ sections, f ∈ part.flags ∧ part.title s = "Options") ∧
      ∀ name, (∃ f ∈ shown, f.group = some name) →
        sections.filter (·.group = some name) = [⟨some name, shown.filter (·.group = some name)⟩] := by
  intro shown
  obtain ⟨front, sections, known, order, frontOwn, own, once⟩ := helpLines_grouped built level
  have order : front ++ sections.flatMap Section.flags = shown := order
  let tagWidth := columnWidth (tagColumn (helpLines s level))
  let valueWidth := columnWidth (valueColumn (helpLines s level))
  obtain ⟨request, help, named, whole⟩ := helpRow_text tagWidth valueWidth s.flags.maxHelpLevel
  refine ⟨rowText tagWidth valueWidth, request, front, sections, ?_⟩
  intro page
  have printed : renderHelp s level command = String.join (page.map (· ++ "\n")) := by
    have last : [.heading "Display help", helpRow s.flags.maxHelpLevel].flatMap
        (HelpLine.texts tagWidth valueWidth) = ["", "Display help:", request] := by
      rw [List.flatMap_cons, List.flatMap_singleton, help]
      rfl
    show helpIntro s command ++
      String.join ((helpLines s level).map (renderLine tagWidth valueWidth)) = _
    rw [helpIntro_eq, join_rendered, ← String.join_append, ← List.map_append, known,
      List.flatMap_append, flatMap_texts, last, ← List.append_assoc, ← List.append_assoc]
  have member : ∀ f ∈ front ++ sections.flatMap Section.flags, f ∈ s.flags.flags := by
    rw [order]
    exact fun f hf => List.mem_of_mem_filter hf
  refine ⟨printed, ?_, fun f _ => isRow_rowText tagWidth valueWidth f, named, order, frontOwn, own,
    ?_, once⟩
  · rw [printed, join_lines, parts_intercalate_iff (by simp) fun _ _ => rfl, List.forall_mem_append,
      List.forall_mem_singleton, String.toList_empty, and_iff_left not_breaks_nil, ← order]
    simp only [breaks_lines_iff]
    exact unbroken_page built command whole member
  · intro f hf root
    rw [← order, List.mem_append, List.mem_flatMap] at hf
    rcases hf with hfront | ⟨part, hpart, hmine⟩
    · exact .inl hfront
    · have options : part.group = none := ((own part hpart).2 f hmine).symm.trans root
      refine .inr ⟨part, hpart, hmine, ?_⟩
      rw [Section.title, options]

/-- A document with a group between two flags of the root, one of its flags at a higher level. -/
def pageDocument : Value :=
  .object [("properties", .object [
    ("verbose", .object [("type", .string "boolean")]),
    ("data", .object [
      ("description", .string "Data options"),
      ("properties", .object [
        ("train", .object [("type", .string "string")]),
        ("split", .object [("type", .string "number"),
          ("x-help", .number (.integer ⟨10, by decide, by decide⟩))])])]),
    ("seed", .object [("type", .string "integer")])])]

/-- The tree of the document. -/
def pageRoot : Node :=
  .object {} [
    ("verbose", .plainScalar (.typed .boolean)),
    ("data", .object { description := some "Data options" } [
      ("train", .plainScalar (.typed .string)),
      ("split", .scalar { helpLevel := 10 } (.typed .number) none)]),
    ("seed", .plainScalar (.typed .integer))]

/-- A flag of the tree without default and choices. -/
def pageFlag (name : String) (path : List String) (type : ScalarType) (level : Nat) : Flag where
  name := name
  aliases := []
  path := path
  typeSummary := type.summary
  variadic := false
  optionalValue := type = .boolean
  default := none
  choices := []
  helpLevel := level
  description := none

/-- The flags of the tree. -/
def pageFlags : List Flag :=
  [pageFlag "verbose" ["verbose"] .boolean 0, pageFlag "train" ["data", "train"] .string 0,
    pageFlag "split" ["data", "split"] .number 10, pageFlag "seed" ["seed"] .integer 0]

/-- The schema of the document. -/
def pageSchema : Schema := ⟨none, none, pageRoot, ⟨pageFlags⟩⟩

theorem pageSchema_built : pageSchema.Built := by
  have root : Schema.buildNode .root {} pageDocument = .ok pageRoot := by
    simp [pageDocument, Schema.buildNode_object, Schema.settings, Schema.choicesOf, Schema.kindOf,
      Schema.kindOfType, Schema.declaredProperties, Schema.buildProperties, List.lookup,
      Schema.attributesOf, Schema.actionsOf, Schema.entriesOf]
    rfl
  have candidates : Flag.candidates [] "" pageRoot.properties = pageFlags := by cbv
  have admitted : FlagTable.ofFlags pageFlags = .ok ⟨pageFlags⟩ := by decide +kernel
  refine ⟨pageDocument, ?_, Schema.ofValue_object_iff.mpr ⟨root, rfl, ?_, rfl, rfl⟩⟩
  · simp [pageDocument, Value.WellFormed, Value.WellFormedEntries]
  · exact (congrArg FlagTable.ofFlags candidates).trans admitted

/-- On its first page no line breaks elsewhere, and the group of the data has one section with
one row. -/
theorem renderHelp_grouped_page :
    pageSchema.Built ∧
    ∃ (row : Flag → String) (request : String) (front : List Flag) (sections : List Section),
      lines.parts (renderHelp pageSchema 0 none) =
        front.map row ++ sections.flatMap (Section.text pageSchema row) ++
          ["", "Display help:", request, ""] ∧
      sections.filter (·.group = some "data") =
        [⟨some "data", [pageFlag "train" ["data", "train"] .string 0]⟩] := by
  obtain ⟨row, request, front, sections, -, read, -, -, order, -, own, -, once⟩ :=
    renderHelp_grouped pageSchema_built 0 none
  have shown : front ++ sections.flatMap Section.flags =
      [pageFlag "verbose" ["verbose"] .boolean 0, pageFlag "train" ["data", "train"] .string 0,
        pageFlag "seed" ["seed"] .integer 0] := order
  have headings : ∀ part ∈ sections, '\n' ∉ (part.title pageSchema).toList := by
    intro part hpart
    obtain ⟨f, hf, same⟩ := (own part hpart).exists_flag
    have member : f ∈ front ++ sections.flatMap Section.flags :=
      List.mem_append_right front (List.mem_flatMap.mpr ⟨part, hpart, hf⟩)
    rw [shown] at member
    rw [Section.title, ← same]
    fin_cases member <;> decide +kernel
  refine ⟨pageSchema_built, row, request, front, sections, ?_, ?_⟩
  · refine (read.mpr ?_).trans ?_
    · rw [givenTexts, ← order, shown, List.forall_mem_append, List.forall_mem_append,
        List.forall_mem_map]
      exact ⟨⟨by simp [pageSchema], headings⟩, by simp [pageFlag]⟩
    · simp [introLines, pageSchema]
  · have train : pageFlag "train" ["data", "train"] .string 0 ∈ pageFlags := by simp [pageFlags]
    exact once "data" ⟨_, List.mem_filter.mpr ⟨train, rfl⟩, rfl⟩

/-- A text of several lines, which read like a heading and a row. -/
def ghostText : String := "x\n\nOptions:\n  --ghost"

/-- A document with one flag, whose default is the text. -/
def ghostDocument : Value :=
  .object [("properties", .object [("a", .object [
    ("type", .string "string"), ("default", .string ghostText)])])]

/-- The node of the flag. -/
def ghostNode : Node :=
  .scalar { default := some (.string ghostText) } (.typed .string) none

/-- The flag. -/
def ghostFlag : Flag where
  name := "a"
  aliases := []
  path := ["a"]
  typeSummary := "str"
  variadic := false
  optionalValue := false
  default := some ghostText
  choices := []
  helpLevel := 0
  description := none

/-- The schema of the document. -/
def ghostSchema : Schema := ⟨none, none, .object {} [("a", ghostNode)], ⟨[ghostFlag]⟩⟩

theorem ghostSchema_built : ghostSchema.Built := by
  refine ⟨ghostDocument, ?_, ?_⟩
  · simp [ghostDocument, Value.WellFormed, Value.WellFormedEntries]
  · cbv

/-- A default of several lines puts a heading and a row on the page that no flag has. -/
theorem renderHelp_ghost :
    ghostSchema.Built ∧ ghostSchema.flags.flags = [ghostFlag] ∧ ghostFlag.group = none ∧
    lines.parts (renderHelp ghostSchema 0 none) =
      ["  --a         str     (default: x", "", "Options:", "  --ghost)",
       "", "Display help:", "  -h, --help  [bool]  Display this help.", ""] :=
  ⟨ghostSchema_built, rfl, rfl, by decide +kernel⟩

end ParamTree.Report
