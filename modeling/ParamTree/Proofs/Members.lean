import ParamTree.Proofs.Exactness
import ParamTree.Proofs.Flags
import ParamTree.Proofs.Traversal

/-!
# Members of an enumeration

A scalar with an enumeration resolves to one of the listed literals, not to the value
itself. A value may say what a literal says, be the same number in the other kind, or be
the text of a literal that is no text (`Value.Means`); the first literal with one of
these is taken (`nodeValue_member`). So a member is taken for an earlier literal if it
is that literal in another form, and the literal need not have the type that the value
was read as: `nodeValue_typed` says where it has not. `Schema.mixedSchema` lists a
number beside its own text.
-/

namespace ParamTree

open FileM Resolve

/-! ## What a value means -/

/-- Is the value null, a truth value or a number? -/
def Value.isAtom : Value → Bool
  | .null | .bool _ | .number _ => true
  | _ => false

/-- `a.SameValue b`: the numbers are equal, or one is a float that is exactly the other. -/
inductive Number.SameValue : Number → Number → Prop
  | same {a b : Number} (h : a.sameAs b = true) : SameValue a b
  | float {x : Binary64} {n : Integer64} (h : x.whole? = some n.val) :
      SameValue (.float x) (.integer n)
  | integer {n : Integer64} {x : Binary64} (h : x.whole? = some n.val) :
      SameValue (.integer n) (.float x)

/-- `v.Means literal`: the value is the literal, perhaps in another form. -/
inductive Value.Means : Value → Value → Prop
  | same {v literal : Value} (h : literal.sameAs v = true) : Means v literal
  | number {a b : Number} (h : a.SameValue b) : Means (.number b) (.number a)
  | text {literal : Value} (h : literal.isAtom = true) :
      Means (.string (renderLiteral literal)) literal

theorem Binary64.sameAs_self (x : Binary64) : x.sameAs x = true := by
  simp only [sameAs, beq_self_eq_true, Bool.true_or, Bool.and_self]

theorem Binary64.sameAs_comm (x y : Binary64) : x.sameAs y = y.sameAs x := by
  rw [Bool.eq_iff_iff]
  simp only [sameAs, Bool.and_eq_true, Bool.or_eq_true, beq_iff_eq]
  constructor
  · rintro ⟨hcode, hsign⟩
    exact ⟨hcode.symm, hsign.imp Eq.symm hcode.symm.trans⟩
  · rintro ⟨hcode, hsign⟩
    exact ⟨hcode.symm, hsign.imp Eq.symm hcode.symm.trans⟩

/-- Numbers of one value have one float value. -/
theorem Number.SameValue.asFloat {a b : Number} (h : a.SameValue b) :
    a.asFloat.sameAs b.asFloat = true := by
  cases h with
  | same h =>
      cases a <;> cases b
      case integer.integer m n =>
        have hval : m.val = n.val := beq_iff_eq.mp h
        have hword : m.toBinary64 = n.toBinary64 := by rw [Integer64.toBinary64, hval]; rfl
        show m.toBinary64.sameAs n.toBinary64 = true
        rw [hword]
        exact Binary64.sameAs_self _
      case float.float x y => exact h
      case integer.float | float.integer => cases h
  | float h =>
      rw [Binary64.sameAs_comm]
      exact Integer64.sameAs_of_whole h
  | integer h => exact Integer64.sameAs_of_whole h

variable {v w literal : Value}

/-- A value stands for what it says, for numbers of its float value, and as a text for
what is written so. -/
theorem standsFor_iff :
    standsFor v literal = true ↔
      literal.sameAs v = true ∨
        (∃ a b, literal = .number a ∧ v = .number b ∧ a.asFloat.sameAs b.asFloat = true) ∨
        literal.isAtom = true ∧ v = .string (renderLiteral literal) := by
  unfold standsFor
  rw [Bool.or_eq_true]
  refine or_congr_right ?_
  cases literal with
  | null | bool | number =>
      cases v with
      | string => simpa [Value.isAtom] using eq_comm
      | null | bool | number | array | object => simp [Value.isAtom]
  | string | array | object => simp [Value.isAtom]

theorem standsFor_of_means (h : v.Means literal) : standsFor v literal = true := by
  rw [standsFor_iff]
  cases h with
  | same h => exact .inl h
  | number h => exact .inr (.inl ⟨_, _, rfl, rfl, h.asFloat⟩)
  | text h => exact .inr (.inr ⟨h, rfl⟩)

/-- `v.Apart literal`: the two are no numbers of different values that are rounded to
one float. -/
def Value.Apart (v literal : Value) : Prop :=
  ∀ a b, literal = .number a → v = .number b → a.asFloat.sameAs b.asFloat = true → a.SameValue b

theorem means_of_standsFor (apart : v.Apart literal) (h : standsFor v literal = true) :
    v.Means literal := by
  rcases standsFor_iff.mp h with same | ⟨a, b, rfl, rfl, hfloat⟩ | ⟨atom, rfl⟩
  · exact .same same
  · exact .number (apart a b rfl rfl hfloat)
  · exact .text atom

/-- Only null means null. -/
theorem eq_null_of_means (h : Value.Means .null literal) : literal = .null := by
  cases h with
  | same h =>
      cases literal with
      | null => rfl
      | bool | number | string | array | object => cases h

/-! ## A number beside its text -/

namespace Schema

/-- An integer. -/
def four : Value := .number (.integer ⟨4, by decide, by decide⟩)

/-- A scalar for the integer and for its text. -/
def mixedNode (type : Primitive) : Node := .scalar {} type (some [four, .string "4"])

/-- Such a scalar as the one parameter of a document. -/
def mixedDocument (type : Primitive) : Value :=
  .object [("properties", .object [
    ("x", .object [("type", .string type.name), ("enum", .array [four, .string "4"])])])]

/-- The schema of the document. -/
def mixedSchema (type : Primitive) : Schema where
  title := none
  description := none
  root := .object {} [("x", mixedNode type)]
  flags := ⟨[.ofNode (mixedNode type) ["x"] "x"]⟩

theorem mixedSchema_built (type : Primitive) : (mixedSchema type).Built := by
  refine ⟨mixedDocument type, ?_, ofValue_object_iff.mpr ⟨?_, rfl, ?_, rfl, rfl⟩⟩
  · simp [mixedDocument, four, Value.WellFormed, Value.WellFormedEntries, Value.WellFormedItems]
  · rcases type with ⟨_ | _ | _ | _⟩ | _ <;> cbv
  · rcases type with ⟨_ | _ | _ | _⟩ | _ <;> cbv

end Schema

/-! ## The literal that is taken -/

/-- The literal taken for a member of a list is the first one that it means, which is
the member or stands before it. -/
theorem enumMember_means {own : Value} {before : List Value} (member : own.sameAs v = true)
    (apart : ∀ m ∈ before, v.Apart m) :
    ∃ earlier literal later, before ++ [own] = earlier ++ literal :: later ∧ v.Means literal ∧
      (∀ m ∈ earlier, ¬v.Means m) ∧
      ∀ after, enumMember v (before ++ own :: after) = some literal := by
  have found : ((before ++ [own]).find? (standsFor v)).isSome :=
    List.find?_isSome.mpr ⟨own, by simp, standsFor_of_means (.same member)⟩
  obtain ⟨literal, hliteral⟩ := Option.isSome_iff_exists.mp found
  obtain ⟨stands, earlier, later, split, hbefore⟩ := List.find?_eq_some_iff_append.mp hliteral
  refine ⟨earlier, literal, later, split, ?_, ?_, ?_⟩
  · have hmem : literal ∈ before ++ [own] := List.mem_of_find?_eq_some hliteral
    rcases List.mem_append.mp hmem with hmem | hmem
    · exact means_of_standsFor (apart literal hmem) stands
    · rw [List.mem_singleton.mp hmem]
      exact .same member
  · intro m hm means
    have hnot := hbefore m hm
    rw [standsFor_of_means means] at hnot
    cases hnot
  · intro after
    rw [enumMember, List.append_cons, List.find?_append, hliteral]
    rfl

namespace Resolve

variable {a : Attributes} {type : Primitive} {allowed : List Value} {path : ParamPath}

/-- A scalar without actions resolves to the literal taken for the coerced value. -/
theorem nodeValue_choice (plain : a.actions = []) (read : type.coerce v = some w)
    (found : taken (some allowed) w = some literal)
    (null : (v.isNull && a.admitsNull) = true → literal = .null) (bare : Bool) :
    nodeValue path (.scalar a type (some allowed)) { value := v, bare } =
      checked a path literal := by
  have shaped : shape path v (.scalar a type (some allowed)) = pure literal := by
    rw [shape_eq]
    split
    · next h => rw [null h]
    · rw [shapeGiven, shapeScalar_ok.mpr ⟨w, read, found⟩]
      rfl
  rw [nodeValue, shaped, pure_bind]
  exact finish_checked plain bare path literal

/-- **An exact member is taken for itself, or for an earlier literal that it means.** -/
theorem nodeValue_member (plain : a.actions = []) (typed : type.coerce v = some v) {own : Value}
    {before : List Value} (member : own.sameAs v = true) (apart : ∀ m ∈ before, v.Apart m) :
    ∃ earlier literal later, before ++ [own] = earlier ++ literal :: later ∧ v.Means literal ∧
      (∀ m ∈ earlier, ¬v.Means m) ∧
      ((∀ m ∈ before, ¬v.Means m) → literal = own) ∧
      ∀ path after bare,
        nodeValue path (.scalar a type (some (before ++ own :: after))) { value := v, bare } =
          checked a path literal := by
  obtain ⟨earlier, literal, later, split, means, first, taken⟩ := enumMember_means member apart
  refine ⟨earlier, literal, later, split, means, first, ?_, ?_⟩
  · intro none
    have hmem : literal ∈ before ++ [own] := by simp [split]
    rcases List.mem_append.mp hmem with hmem | hmem
    · exact absurd means (none literal hmem)
    · exact List.mem_singleton.mp hmem
  · intro path after bare
    refine nodeValue_choice plain typed (taken after) ?_ bare
    intro h
    rw [Value.isNull_iff.mp (Bool.and_eq_true_iff.mp h).1] at means
    exact eq_null_of_means means

/-- The float `4.0`. -/
def fourFloat : Value := .number (.float ⟨false, 1025 * twoTo 52, by decide⟩)

open Schema in
/-- The float is listed behind its text and the integer. -/
theorem nodeValue_member_float :
    (∀ m ∈ [.string "4.0", four], fourFloat.Apart m) ∧
      ∃ earlier literal later,
        [.string "4.0", four, fourFloat] = earlier ++ literal :: later ∧
        fourFloat.Means literal ∧ (∀ m ∈ earlier, ¬fourFloat.Means m) ∧
        ((∀ m ∈ [.string "4.0", four], ¬fourFloat.Means m) → literal = fourFloat) ∧
        ∀ path after bare,
          nodeValue path (.scalar {} (.typed .number)
              (some ([.string "4.0", four] ++ fourFloat :: after)))
              { value := fourFloat, bare } =
            checked {} path literal := by
  have apart : ∀ m ∈ [.string "4.0", four], fourFloat.Apart m := by
    intro m hm a b ha hb hfloat
    rcases List.mem_cons.mp hm with rfl | hm
    · cases ha
    · cases List.mem_singleton.mp hm
      cases ha
      cases hb
      exact .integer (by decide +kernel)
  have member : fourFloat.sameAs fourFloat = true := by decide +kernel
  exact ⟨apart, nodeValue_member rfl rfl member apart⟩

open Schema in
/-- The text is listed, and the number before it is taken. -/
theorem member_taken_for_number :
    (mixedSchema .any).Built ∧
      (mixedSchema .any).root.descend ["x"] = some (mixedNode .any) ∧
      .string "4" ∈ [four, .string "4"] ∧
      Primitive.any.coerce (.string "4") = some (.string "4") ∧
      ((mixedSchema .any).resolve none (some ["--x", "4"])).run (.bare []) =
        .ok (.object [("x", four)]) (.bare []) ∧
      four.sameAs (.string "4") = false :=
  ⟨mixedSchema_built .any, by cbv, by simp, rfl, by cbv, rfl⟩

end Resolve

/-! ## The type of the literal -/

/-- `Respelled t v w`: the raw value `v` of a scalar of type `t` is taken for a literal
`w` of another type. -/
inductive Respelled : ScalarType → Value → Value → Prop
  /-- A text is how the literal is written. -/
  | text {w : Value} (h : w.isAtom = true) : Respelled .string (.string (renderLiteral w)) w
  /-- An integer is listed as a float. -/
  | float {v : Value} {n : Integer64} {x : Binary64}
      (h : ScalarType.integer.coerce v = some (.number (.integer n))) :
      Respelled .integer v (.number (.float x))

/-- What says the same has the same types. -/
theorem admits_of_sameAs {t : ScalarType} (h : literal.sameAs v = true) (typed : t.admits v = true) :
    t.admits literal = true := by
  cases v with
  | null | array | object => cases t <;> cases typed
  | bool =>
      cases literal with
      | bool =>
          cases t with
          | boolean => rfl
          | string | integer | number => cases typed
      | null | number | string | array | object => cases h
  | string =>
      cases literal with
      | string =>
          cases t with
          | string => rfl
          | integer | number | boolean => cases typed
      | null | bool | number | array | object => cases h
  | number b =>
      cases literal with
      | number a =>
          cases t with
          | number => rfl
          | integer =>
              cases b with
              | float => cases typed
              | integer =>
                  cases a with
                  | integer => rfl
                  | float => cases h
          | string | boolean => cases typed
      | null | bool | string | array | object => cases h

/-- A value of a type stands for literals of this type, except that a text stands for
what is written so and an integer for floats. -/
theorem typed_of_standsFor {t : ScalarType} (typed : t.admits v = true)
    (stands : standsFor v literal = true) :
    t.admits literal = true ∨
      (t = .string ∧ literal.isAtom = true ∧ v = .string (renderLiteral literal)) ∨
      t = .integer ∧ (∃ n, v = .number (.integer n)) ∧ ∃ x, literal = .number (.float x) := by
  rcases standsFor_iff.mp stands with same | ⟨a, b, rfl, rfl, -⟩ | ⟨atom, rfl⟩
  · exact .inl (admits_of_sameAs same typed)
  · cases t with
    | string | boolean => cases typed
    | number => exact .inl rfl
    | integer =>
        cases b with
        | float => cases typed
        | integer n =>
            cases a with
            | integer => exact .inl rfl
            | float x => exact .inr (.inr ⟨rfl, ⟨n, rfl⟩, x, rfl⟩)
  · cases t with
    | string => exact .inr (.inl ⟨rfl, atom, rfl⟩)
    | integer | number | boolean => cases typed

namespace Resolve

/-- **A typed enumeration resolves to a literal of its type, unless it lists literals of
other types.** -/
theorem nodeValue_typed {a : Attributes} (plain : a.actions = []) {t : ScalarType}
    {allowed : List Value} {path : ParamPath} {raw : Raw} {fs fs' : FileSystem}
    (run : (nodeValue path (.scalar a (.typed t) (some allowed)) raw).run fs = .ok w fs')
    (present : w.isNull = false) :
    w ∈ allowed ∧ (t.admits w = true ∧ t.coerce w = some w ∨ Respelled t raw.value w) := by
  obtain ⟨shaped, fs₁, hshape, hfinish⟩ := run_bind_ok.mp run
  obtain rfl := finish_plain plain hfinish
  rcases shape_run_ok.mp hshape with ⟨-, -, rfl, -⟩ | ⟨-, hshape⟩
  · cases present
  · obtain ⟨hshape, -⟩ := run_liftExcept_ok.mp hshape
    obtain ⟨read, hread, taken⟩ := shapeScalar_ok.mp hshape
    refine ⟨List.mem_of_find?_eq_some taken, ?_⟩
    rcases typed_of_standsFor (coerce_admits hread) (List.find?_some taken) with
      typed | ⟨rfl, atom, rfl⟩ | ⟨rfl, ⟨n, rfl⟩, x, rfl⟩
    · exact .inl ⟨typed, coerce_of_admits typed⟩
    · -- what is read as a text is this text
      rw [eq_of_coerce_string hread]
      exact .inr (.text atom)
    · exact .inr (.float hread)

open Schema in
/-- A text that is taken for the number written so. -/
theorem nodeValue_typed_four :
    (nodeValue (.ofKeys ["x"]) (mixedNode (.typed .string)) { value := .string "4" }).run (.bare []) =
        .ok four (.bare []) ∧
      four.isNull = false ∧ four ∈ [four, .string "4"] ∧
      (ScalarType.string.admits four = true ∧ ScalarType.string.coerce four = some four ∨
        Respelled .string (.string "4") four) := by
  have run : (nodeValue (.ofKeys ["x"]) (mixedNode (.typed .string))
      { value := .string "4" }).run (.bare []) = .ok four (.bare []) := by cbv
  exact ⟨run, rfl, nodeValue_typed rfl run rfl⟩

open Schema in
/-- A parameter declared as a text resolves to a number. -/
theorem declared_type_lost :
    (mixedSchema (.typed .string)).Built ∧
      (mixedSchema (.typed .string)).root.descend ["x"] = some (mixedNode (.typed .string)) ∧
      ((mixedSchema (.typed .string)).resolve none (some ["--x", "4"])).run (.bare []) =
        .ok (.object [("x", four)]) (.bare []) ∧
      four.isNull = false ∧ ScalarType.string.admits four = false :=
  ⟨mixedSchema_built (.typed .string), by cbv, by cbv, rfl, rfl⟩

end Resolve

end ParamTree
