/-!
# Text as the system has it

The system keeps paths and the names of entries as bytes, which need not be UTF-8. `text?`
is the text that such bytes are, if they are one; `display` shows them in any case, with a
replacement character for what is no text.
-/

namespace ParamTree

/-- A path, or a name in one, as the system has it. -/
structure RawText where
  bytes : List UInt8
deriving DecidableEq, Repr

namespace RawText

/-- The bytes of a text in UTF-8. -/
def ofText (s : String) : RawText := ⟨s.toByteArray.data.toList⟩

instance : Coe String RawText := ⟨ofText⟩

instance : Append RawText := ⟨fun s t => ⟨s.bytes ++ t.bytes⟩⟩

/-- The text that the bytes are in UTF-8. -/
def text? (t : RawText) : Option String := String.fromUTF8? ⟨t.bytes.toArray⟩

/-- The order by bytes. -/
instance : LE RawText := ⟨fun a b => a.bytes ≤ b.bytes⟩

instance : DecidableLE RawText := fun a b => inferInstanceAs (Decidable (a.bytes ≤ b.bytes))

@[simp] theorem bytes_append (s t : RawText) : (s ++ t).bytes = s.bytes ++ t.bytes := rfl

@[simp] theorem mk_append (bs cs : List UInt8) : (⟨bs⟩ ++ ⟨cs⟩ : RawText) = ⟨bs ++ cs⟩ := rfl

theorem text?_eq_some_iff {t : RawText} {s : String} : t.text? = some s ↔ t = s := by
  unfold text? String.fromUTF8?
  constructor
  · intro h
    split at h
    · cases h
      simp [ofText, String.fromUTF8]
    · cases h
  · rintro rfl
    have same : (⟨(ofText s).bytes.toArray⟩ : ByteArray) = s.toByteArray := by simp [ofText]
    simp only [same, s.isValidUTF8, dif_pos]
    rfl

@[simp] theorem text?_ofText (s : String) : (ofText s).text? = some s := text?_eq_some_iff.mpr rfl

@[simp] theorem ofText_inj {s t : String} : ofText s = ofText t ↔ s = t := by
  constructor
  · intro h
    have both := text?_ofText s
    rw [h, text?_ofText] at both
    exact (Option.some.inj both).symm
  · rintro rfl
    rfl

/-! ## Showing bytes -/

/-- How many bytes follow the first one of a character, and the bounds of the first of
these. -/
def followers? (b : UInt8) : Option (Nat × UInt8 × UInt8) :=
  if b < 0x80 then some (0, 0x80, 0xbf)
  else if b < 0xc2 then none
  else if b < 0xe0 then some (1, 0x80, 0xbf)
  else if b = 0xe0 then some (2, 0xa0, 0xbf)
  else if b = 0xed then some (2, 0x80, 0x9f)
  else if b < 0xf0 then some (2, 0x80, 0xbf)
  else if b = 0xf0 then some (3, 0x90, 0xbf)
  else if b < 0xf4 then some (3, 0x80, 0xbf)
  else if b = 0xf4 then some (3, 0x80, 0x8f)
  else none

/-- The number of bytes after `b` that go on with the character that `b` starts. -/
def goesOn (b : UInt8) (rest : List UInt8) : Nat :=
  match followers? b, rest with
  | some (count, low, high), second :: more =>
    if low ≤ second && second ≤ high then
      1 + ((more.take (count - 1)).takeWhile fun c => 0x80 ≤ c && c ≤ 0xbf).length
    else 0
  | _, _ => 0

/-- The characters of some bytes. Bytes that start a character without its end, and bytes
that start none, become one replacement character. -/
def shown (bytes : List UInt8) : List Char :=
  match bytes with
  | [] => []
  | b :: rest =>
    match ByteArray.utf8DecodeChar? ⟨(b :: rest).toArray⟩ 0 with
    | some c => c :: shown (rest.drop (c.utf8Size - 1))
    | none => '\uFFFD' :: shown (rest.drop (goesOn b rest))
termination_by bytes.length
decreasing_by
  all_goals
    rw [List.length_drop, List.length_cons]
    omega

/-- The bytes as text for a reader. -/
def display (t : RawText) : String :=
  match t.text? with
  | some s => s
  | none => String.ofList (shown t.bytes)

end RawText

end ParamTree
