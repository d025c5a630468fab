import Mathlib.Data.List.TakeWhile
import ParamTree.Schema.Primitive

/-!
# Scalars

What coercion gives has the type that it was coerced to (`coerce_admits`), and
coercing it again changes nothing (`coerce_coerce`).

A text that stands for a value of one type can be read as every type that the value
has (`ofText_of_admits`). For an integer and a number this is about the two readers:
digits after an optional sign are a decimal without fraction and exponent, and the
magnitude of a word is far inside the range of the finite floats.
-/

namespace ParamTree

/-! ## Digits -/

theorem isDigit_of_digitIn? {c : Char} {d : Nat} (h : digitIn? 10 c = some d) : isDigit c := by
  by_cases hdigit : ('0' ≤ c && c ≤ '9') = true
  · exact hdigit
  · -- a letter counts ten or more
    simp only [digitIn?, if_neg hdigit] at h
    split at h
    · rw [if_neg (by omega)] at h
      cases h
    · split at h
      · rw [if_neg (by omega)] at h
        cases h
      · rw [if_neg (by omega)] at h
        cases h

/-- What is read as a natural number consists of digits. -/
theorem all_isDigit_of_foldDigits? {cs : List Char} {acc n : Nat}
    (h : foldDigits? 10 acc cs = some n) : ∀ c ∈ cs, isDigit c := by
  induction cs generalizing acc with
  | nil => simp
  | cons c cs ih =>
      rw [foldDigits?] at h
      obtain ⟨d, hd, h⟩ := Option.bind_eq_some_iff.mp h
      intro c' hc'
      rcases List.mem_cons.mp hc' with rfl | hc'
      · exact isDigit_of_digitIn? hd
      · exact ih h c' hc'

namespace Decimal

/-- Digits alone are a decimal without fraction and exponent. -/
theorem readUnsigned?_digits {negative : Bool} {cs : List Char} {n : Nat}
    (h : natIn? 10 cs = some n) : readUnsigned? negative cs = some ⟨negative, n, 0⟩ := by
  have hdigits : ∀ c ∈ cs, isDigit c := by
    unfold natIn? at h
    split at h
    · cases h
    · exact all_isDigit_of_foldDigits? h
  have htake : cs.takeWhile isDigit = cs := List.takeWhile_eq_self_iff.mpr hdigits
  have hdrop : cs.dropWhile isDigit = [] := List.dropWhile_eq_nil_iff.mpr hdigits
  simp [readUnsigned?, htake, hdrop, h, readExponent?]

/-- A text read as an integer reads as the decimal of the same magnitude. -/
theorem read?_of_intIn? {cs : List Char} {i : Int} (h : intIn? 10 cs = some i) :
    ∃ negative, read? cs = some ⟨negative, i.natAbs, 0⟩ := by
  unfold intIn? at h
  unfold read?
  split at h
  · next digits =>
    cases hn : natIn? 10 digits with
    | none => simp [hn] at h
    | some n =>
        obtain rfl : -(n : Int) = i := by simpa [hn] using h
        exact ⟨true, by simpa using readUnsigned?_digits hn⟩
  · next digits =>
    cases hn : natIn? 10 digits with
    | none => simp [hn] at h
    | some n =>
        obtain rfl : (n : Int) = i := by simpa [hn] using h
        exact ⟨false, by simpa using readUnsigned?_digits hn⟩
  · next hminus hplus =>
    cases hn : natIn? 10 cs with
    | none => simp [hn] at h
    | some n =>
        obtain rfl : (n : Int) = i := by simpa [hn] using h
        exact ⟨false, by simpa using readUnsigned?_digits hn⟩

end Decimal

/-! ## The range of the floats -/

theorem twoTo_pos (n : Nat) : 0 < twoTo n := Nat.two_pow_pos n

theorem twoTo_add (m n : Nat) : twoTo (m + n) = twoTo m * twoTo n := Nat.pow_add 2 m n

theorem twoTo_succ (n : Nat) : twoTo (n + 1) = 2 * twoTo n := by
  rw [twoTo_add, Nat.mul_comm]
  rfl

namespace Binary64

theorem roundHalfEven_le (a b : Nat) : roundHalfEven a b ≤ a / b + 1 := by
  simp only [roundHalfEven]
  split
  · omega
  · split
    · omega
    · split <;> omega

/-- The code of a magnitude below `2 ^ 64` is a finite one. -/
theorem nearestCode_lt {num : Nat} (h : num < twoTo 64) : nearestCode num 1 < 2047 * twoTo 52 := by
  have hlog : num.log2 ≤ 63 := by
    rcases Nat.eq_zero_or_pos num with rfl | hpos
    · decide
    · have := (Nat.log2_lt (Nat.ne_of_gt hpos)).mpr h
      omega
  have hone : Nat.log2 1 = 0 := by decide
  have hunit : 0 < twoTo 52 := by decide
  have hcarry : twoTo 53 = 2 * twoTo 52 := by decide
  simp only [nearestCode, hone, Nat.sub_zero, Nat.one_mul]
  split
  · decide
  · split
    · next hsmall =>
      have hround := roundHalfEven_le (num * twoTo 1074) (twoTo (1021 + num.log2))
      have hscale := Nat.mul_le_mul_right (twoTo 52) (show 1021 + num.log2 ≤ 1084 by omega)
      omega
    · have hround := roundHalfEven_le (num * twoTo 1074) (2 * twoTo (1021 + num.log2))
      -- the doubled step brings the quotient below 54 bits
      have hquotient : num * twoTo 1074 / (2 * twoTo (1021 + num.log2)) < twoTo 53 := by
        rw [← twoTo_succ, Nat.div_lt_iff_lt_mul (twoTo_pos _), ← twoTo_add]
        calc num * twoTo 1074
            < twoTo (num.log2 + 1) * twoTo 1074 :=
              Nat.mul_lt_mul_of_pos_right Nat.lt_log2_self (twoTo_pos 1074)
          _ = twoTo (num.log2 + 1 + 1074) := (twoTo_add _ _).symm
          _ = twoTo (53 + (1021 + num.log2 + 1)) := by
              congr 1
              omega
      have hscale := Nat.mul_le_mul_right (twoTo 52) (show 1021 + num.log2 + 1 ≤ 1085 by omega)
      omega

theorem ofRatio?_isSome {num : Nat} (negative : Bool) (h : num < twoTo 64) :
    (ofRatio? negative num 1).isSome := by
  simp [ofRatio?, nearestCode_lt h]

end Binary64

theorem Decimal.toBinary64?_isSome {negative : Bool} {n : Nat} (h : n < twoTo 64) :
    (toBinary64? ⟨negative, n, 0⟩).isSome := by
  have hcount : digitCount n ≤ 20 := by
    refine (Nat.length_toDigits_le_iff (by decide) (by decide)).mpr (h.trans_le ?_)
    decide
  simp only [toBinary64?]
  split
  · rfl
  · rw [if_neg (by omega), if_neg (by omega), if_pos (Int.le_refl 0)]
    refine Binary64.ofRatio?_isSome negative ?_
    simpa [tenTo] using h

theorem parseFloat_isSome_of_parseInteger {s : String} {n : Integer64}
    (h : parseInteger s = some n) : (parseFloat s).isSome := by
  obtain ⟨i, hi, hn⟩ := Option.bind_eq_some_iff.mp h
  obtain ⟨negative, hread⟩ := Decimal.read?_of_intIn? hi
  have hrange : i.natAbs < twoTo 64 := by
    unfold Integer64.ofSigned? at hn
    split at hn
    · next hbounds =>
      have : twoTo 64 = 0x10000000000000000 := by decide
      omega
    · cases hn
  rw [parseFloat, hread]
  exact Decimal.toBinary64?_isSome hrange

/-! ## Coercion -/

variable {v w : Value}

/-- `ReadAs s t w`: as a scalar of type `t` the text `s` stands for `w`. -/
inductive ReadAs (s : String) : ScalarType → Value → Prop
  | string : ReadAs s .string (.string s)
  | integer {n : Integer64} (h : parseInteger s = some n) : ReadAs s .integer (.number (.integer n))
  | number {x : Binary64} (h : parseFloat s = some x) : ReadAs s .number (.number (.float x))
  | boolean {b : Bool} (h : parseBool s = some b) : ReadAs s .boolean (.bool b)

theorem readAs_of_ofText {t : ScalarType} {s : String} (h : t.ofText s = some w) :
    ReadAs s t w := by
  cases t with
  | string =>
      cases h
      exact .string
  | integer =>
      rw [ScalarType.ofText, Option.map_eq_some_iff] at h
      obtain ⟨n, hn, hw⟩ := h
      exact hw ▸ .integer hn
  | number =>
      rw [ScalarType.ofText, Option.map_eq_some_iff] at h
      obtain ⟨x, hx, hw⟩ := h
      exact hw ▸ .number hx
  | boolean =>
      rw [ScalarType.ofText, Option.map_eq_some_iff] at h
      obtain ⟨b, hb, hw⟩ := h
      exact hw ▸ .boolean hb

/-- Text read as a type has the type. -/
theorem ReadAs.admits {t : ScalarType} {s : String} (h : ReadAs s t w) : t.admits w := by
  cases h <;> rfl

/-- A text that stands for a value of some type can be read as every type that the
value has: what is an integer can be read as a number. -/
theorem ofText_of_admits {t u : ScalarType} {s : String} (h : ReadAs s t w)
    (hw : u.admits w) : (u.ofText s).isSome := by
  cases h with
  | string =>
      cases u with
      | string => rfl
      | integer | number | boolean => cases hw
  | integer h =>
      cases u with
      | integer => simp [ScalarType.ofText, h]
      | number => simpa [ScalarType.ofText] using parseFloat_isSome_of_parseInteger h
      | string | boolean => cases hw
  | number h =>
      cases u with
      | number => simp [ScalarType.ofText, h]
      | string | integer | boolean => cases hw
  | boolean h =>
      cases u with
      | boolean => simp [ScalarType.ofText, h]
      | string | integer | number => cases hw

/-- Coercion gives a value of the type. -/
theorem coerce_admits {type : Primitive} (h : type.coerce v = some w) : type.admits w := by
  cases type with
  | any => rfl
  | typed t =>
      change t.coerce v = some w at h
      unfold ScalarType.coerce at h
      split at h
      · exact (readAs_of_ofText h).admits
      · split at h
        · next hadmits =>
          cases h
          exact hadmits
        · cases h

/-- Coercion leaves alone what is no text. -/
theorem coerce_of_not_text {type : Primitive} (hv : ∀ s, v ≠ .string s)
    (h : type.coerce v = some w) : w = v := by
  cases type with
  | any =>
      cases h
      rfl
  | typed t =>
      change t.coerce v = some w at h
      rw [ScalarType.coerce.eq_2 _ _ hv] at h
      split at h
      · cases h
        rfl
      · cases h

/-- Coercion to a text leaves every value alone that it takes. -/
theorem eq_of_coerce_string (h : ScalarType.string.coerce v = some w) : v = w := by
  cases v with
  | string s =>
      cases h
      rfl
  | null | bool | number | array | object => cases h

/-- A value of the type is coerced to itself. -/
theorem coerce_of_admits {t : ScalarType} (h : t.admits v = true) : t.coerce v = some v := by
  cases v with
  | string s =>
      cases t with
      | string => rfl
      | integer | number | boolean => cases h
  | null | bool | number | array | object => simp [ScalarType.coerce, h]

/-- Coercing twice is coercing once. -/
theorem coerce_coerce {type : Primitive} (h : type.coerce v = some w) : type.coerce w = some w := by
  cases type with
  | any => rfl
  | typed t => exact coerce_of_admits (coerce_admits h)

/-! ## Enumerations -/

/-- A text is the only thing that stands for a text. -/
theorem standsFor_string {s : String} (h : standsFor v (.string s) = true) : v = .string s := by
  cases v with
  | string t =>
      have hst : s = t := by simpa [standsFor, Value.sameAs] using h
      rw [hst]
  | null | bool | number | array | object => simp [standsFor, Value.sameAs] at h

/-- Where every literal is a text, a value that stands for one is that literal. -/
theorem enumMember_text {allowed : List Value} (texts : ∀ literal ∈ allowed, ∃ s, literal = .string s)
    (h : enumMember v allowed = some w) : v = w ∧ ∃ s, w = .string s := by
  obtain ⟨s, rfl⟩ := texts w (List.mem_of_find?_eq_some h)
  exact ⟨standsFor_string (List.find?_some h), s, rfl⟩

end ParamTree
