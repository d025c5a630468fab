import Mathlib
import ParamTree.Document.CommandSet
import ParamTree.Proofs.Listings

/-!
# Names of documents

The name of a document is a stem, a point and the extension of a format. The program cuts a
name at the last byte that is a point, and asks whether what follows is the text of an
extension; the stem need not be a text (`documentName_iff`).
-/

namespace ParamTree

/-! ## Stem and extension -/

/-- The file name `name` is that of a document with the stem `stem`: after its last point
stands the extension of a format, in letters of either case. -/
def RawText.NamesDocument (name stem : RawText) : Prop :=
  ∃ extension : String, name = stem ++ "." ++ extension ∧ stem ≠ "" ∧
    extension.toLower ∈ ["json", "yaml", "yml"]

/-- The last name of `path` is that of a document with the stem `stem`. -/
def DocumentName (path stem : RawText) : Prop :=
  ∃ name, Files.fileName? path = some name ∧ name.NamesDocument stem

/-- Where bytes are cut at their first point. -/
theorem takeWhile_point {bs before after : List UInt8} (free : Files.point ∉ before)
    (h : bs = before ++ Files.point :: after) :
    bs.takeWhile (· ≠ Files.point) = before ∧ bs.dropWhile (· ≠ Files.point) = Files.point :: after := by
  have plain : ∀ b ∈ before, decide (b ≠ Files.point) = true := by
    intro b hb
    exact decide_eq_true fun point => free (point ▸ hb)
  rw [h, List.takeWhile_append_of_pos plain, List.dropWhile_append_of_pos plain]
  simp

theorem cutExtension_iff {name stem extension : RawText} :
    Files.cutExtension name = (stem, some extension) ↔
      name = stem ++ "." ++ extension ∧ stem ≠ "" ∧ Files.point ∉ extension.bytes := by
  obtain ⟨name⟩ := name
  obtain ⟨stem⟩ := stem
  obtain ⟨extension⟩ := extension
  -- the name is read from its end, where its last point comes first
  have whole : (⟨name⟩ : RawText) = ⟨stem⟩ ++ "." ++ ⟨extension⟩ ↔
      name.reverse = extension.reverse ++ Files.point :: stem.reverse := by
    have point : ("." : RawText) = ⟨[Files.point]⟩ := rfl
    rw [point, RawText.mk_append, RawText.mk_append, RawText.mk.injEq, ← List.reverse_inj]
    simp
  have empty : (⟨stem⟩ : RawText) = "" ↔ stem = [] := by
    rw [show ("" : RawText) = ⟨[]⟩ from rfl, RawText.mk.injEq]
  rw [whole, ne_eq, empty, Files.cutExtension]
  constructor
  · intro h
    by_cases has : Files.point ∈ name.reverse
    · obtain ⟨before, after, cut, free⟩ := List.eq_append_cons_of_mem has
      simp only [takeWhile_point free cut] at h
      split at h
      · cases h
      · next filled =>
        cases h
        simpa [cut, free] using filled
    · have noPoint : name.reverse.dropWhile (· ≠ Files.point) = [] := by
        rw [List.dropWhile_eq_nil_iff]
        intro b hb
        exact decide_eq_true fun point => has (point ▸ hb)
      simp only [noPoint] at h
      cases h
  · rintro ⟨h, nonempty, free⟩
    obtain ⟨before, after⟩ := takeWhile_point (by simpa using free) h
    rw [before, after]
    simp [nonempty]

/-- The bytes of a character beyond ASCII are 128 or more. -/
theorem utf8EncodeChar_high {c : Char} (h : 0x7f < c.val.toNat) :
    ∀ b ∈ String.utf8EncodeChar c, 0x80 ≤ b.toNat := by
  simp only [String.utf8EncodeChar, Nat.not_le.mpr h, if_false]
  repeat' split
  all_goals
    simp only [List.forall_mem_cons, List.not_mem_nil, false_implies, implies_true, and_true,
      UInt8.toNat_ofNat']
    omega

/-- The byte of a point stands for a point, and for nothing else. -/
theorem eq_point_of_mem {c : Char} (h : Files.point ∈ String.utf8EncodeChar c) : c = '.' := by
  by_cases ascii : c.val.toNat ≤ 0x7f
  · simp only [String.utf8EncodeChar, ascii, if_true, List.mem_singleton] at h
    have code : 46 = c.val.toNat % 256 := by simpa [Files.point] using congrArg UInt8.toNat h
    refine Char.ext (UInt32.toNat_inj.mp ?_)
    show c.val.toNat = 46
    omega
  · exact absurd (utf8EncodeChar_high (Nat.lt_of_not_le ascii) _ h) (by decide)

theorem bytes_ofText (s : String) :
    (RawText.ofText s).bytes = s.toList.flatMap String.utf8EncodeChar := by
  rw [RawText.ofText, ← String.utf8Encode_toList, List.utf8Encode]
  simp

/-- The letters of an extension in either case. -/
theorem toLower_eq_iff {extension s : String} :
    extension.toLower = s ↔ extension.toList.map Char.toLower = s.toList := by
  rw [String.toLower, ← String.toList_inj, String.toList_map]

theorem ofExtension?_isSome {extension : String} :
    (DocumentFormat.ofExtension? extension).isSome = true ↔
      extension.toLower ∈ ["json", "yaml", "yml"] := by
  simp only [List.mem_cons, List.not_mem_nil, or_false, toLower_eq_iff]
  show _ ↔ _ = ['j', 's', 'o', 'n'] ∨ _ = ['y', 'a', 'm', 'l'] ∨ _ = ['y', 'm', 'l']
  rw [DocumentFormat.ofExtension?]
  grind

/-- The extension of a format has no point. -/
theorem point_not_mem_extension {extension : String}
    (format : extension.toLower ∈ ["json", "yaml", "yml"]) :
    Files.point ∉ (RawText.ofText extension).bytes := by
  intro h
  rw [bytes_ofText] at h
  obtain ⟨c, hc, hpoint⟩ := List.mem_flatMap.mp h
  have lower : '.' ∈ extension.toList.map Char.toLower :=
    List.mem_map.mpr ⟨c, hc, by rw [eq_point_of_mem hpoint]; rfl⟩
  simp only [List.mem_cons, List.not_mem_nil, or_false, toLower_eq_iff] at format
  rcases format with format | format | format
  all_goals
    rw [format] at lower
    revert lower
    decide

/-- What the program asks of a path: a stem, and the extension of a format. -/
theorem documentName_iff {path stem : RawText} : DocumentName path stem ↔
    Files.stem? path = some stem ∧ (DocumentFormat.ofPath? path).isSome = true := by
  rw [DocumentName, Files.stem?, DocumentFormat.ofPath?, Files.extension?]
  cases Files.fileName? path with
  | none => simp
  | some name =>
      rw [Option.bind_some, Option.map_some, Option.some_inj]
      constructor
      · rintro ⟨_, same, extension, rfl, nonempty, format⟩
        cases same
        rw [cutExtension_iff.mpr ⟨rfl, nonempty, point_not_mem_extension format⟩, Option.bind_some,
          RawText.text?_ofText]
        exact ⟨rfl, ofExtension?_isSome.mpr format⟩
      · rintro ⟨rfl, format⟩
        cases hcut : (Files.cutExtension name).2 with
        | none =>
            rw [hcut] at format
            cases format
        | some raw =>
            rw [hcut, Option.bind_some] at format
            cases htext : raw.text? with
            | none =>
                rw [htext] at format
                cases format
            | some extension =>
                rw [htext] at format
                obtain rfl := RawText.text?_eq_some_iff.mp htext
                obtain ⟨hname, nonempty, -⟩ := cutExtension_iff.mp (Prod.ext rfl hcut)
                exact ⟨name, rfl, extension, hname, nonempty, ofExtension?_isSome.mp format⟩

/-- The path of an entry is that of a document exactly if its name is. -/
theorem documentName_join {directory name stem : RawText} (filled : directory.bytes ≠ [])
    (proper : name.EntryName) :
    DocumentName (Files.join directory name) stem ↔ name.NamesDocument stem := by
  rw [DocumentName, Files.fileName?_join filled proper]
  simp

theorem DocumentName.unique {path stem other : RawText} (h : DocumentName path stem)
    (h' : DocumentName path other) : stem = other := by
  have both := (documentName_iff.mp h).1.symm.trans (documentName_iff.mp h').1
  exact Option.some_inj.mp both

theorem commandName?_iff {path : RawText} {name : String} :
    commandName? path = some name ↔ Files.stem? path = some (name : RawText) := by
  rw [commandName?, Option.bind_eq_some_iff]
  simp only [RawText.text?_eq_some_iff, exists_eq_right]

/-- A document whose stem is a text gives the command of this name. -/
theorem DocumentName.named {path : RawText} {stem : String} (h : DocumentName path stem) :
    commandName? path = some stem :=
  commandName?_iff.mpr (documentName_iff.mp h).1

end ParamTree
