import Mathlib
import ParamTree.Proofs.Conversion
import ParamTree.Proofs.Exactness

/-!
# Whole numbers as integers

A number has an exact value (`Number.value`), and the conversion to integers keeps it. Integers
are taken as they are, and of the floats those whose value is a whole number between the two
ends of the signed range (`convert_float_iff`). The ends are left out: of these the upper one is
beyond the range anyway, but the lower one belongs to it (`lower_end_refused`).
-/

namespace ParamTree

/-! ## Exact values -/

/-- The exact value of a float. -/
def Binary64.value (x : Binary64) : ℚ :=
  (if x.negative then -1 else 1) * (x.magnitude / twoTo 1074)

/-- The exact value of a number. -/
def Number.value : Number → ℚ
  | .integer n => n.val
  | .float x => x.value

namespace Binary64

variable {x : Binary64} {i : Int}

theorem abs_value (x : Binary64) : |x.value| = x.magnitude / twoTo 1074 := by
  have nonneg : (0 : ℚ) ≤ x.magnitude / twoTo 1074 := by positivity
  rw [value]
  split
  · rw [neg_one_mul, abs_neg, abs_of_nonneg nonneg]
  · rw [one_mul, abs_of_nonneg nonneg]

theorem step_ne_zero : (twoTo 1074 : ℚ) ≠ 0 := by
  exact_mod_cast (twoTo_pos 1074).ne.symm

theorem value_of_whole? (h : x.whole? = some i) : x.value = i := by
  obtain ⟨units, sign⟩ := whole?_spec h
  have magnitude : (x.magnitude : ℚ) / twoTo 1074 = |(i : ℚ)| := by
    rw [Binary64.magnitude, units, Nat.cast_mul, mul_div_cancel_right₀ _ step_ne_zero, Nat.cast_natAbs,
      Int.cast_abs]
  rw [value, magnitude]
  rcases sign with rfl | sign
  · simp
  · rcases lt_or_ge i 0 with below | above
    · have negative : (i : ℚ) < 0 := by exact_mod_cast below
      simp [sign, below, abs_of_neg negative]
    · have positive : (0 : ℚ) ≤ i := by exact_mod_cast above
      simp [sign, above.not_gt, abs_of_nonneg positive]

/-- A float is read as the integer that is its value, if there is one. -/
theorem whole?_eq_some_iff : x.whole? = some i ↔ x.value = i := by
  constructor
  · exact value_of_whole?
  · intro h
    have magnitude : x.magnitude = i.natAbs * twoTo 1074 := by
      have exact := abs_value x
      rw [h, eq_div_iff step_ne_zero, ← Int.cast_abs, ← Nat.cast_natAbs] at exact
      exact_mod_cast exact.symm
    obtain ⟨j, hj⟩ : ∃ j, x.whole? = some j := by
      rw [whole?, magnitude, if_pos (Nat.mul_mod_left _ _)]
      exact ⟨_, rfl⟩
    have same := value_of_whole? hj
    rw [h, Int.cast_inj] at same
    exact same ▸ hj

/-- Is the value a whole number of the signed range, other than its lower end? -/
def InRange (x : Binary64) : Prop := ∃ i : Int, x.value = i ∧ -2 ^ 63 < i ∧ i < 2 ^ 63

theorem inRange_iff (h : x.value = i) : x.InRange ↔ -2 ^ 63 < i ∧ i < 2 ^ 63 := by
  constructor
  · rintro ⟨j, whole, inside⟩
    rw [h, Int.cast_inj] at whole
    exact whole ▸ inside
  · intro inside
    exact ⟨i, h, inside⟩

end Binary64

/-! ## One number -/

variable {x : Binary64} {n : Number} {w : Value}

/-- A float in range becomes the integer that is its value, and other floats are refused. -/
theorem convert_float_iff : ScalarType.integer.convert (.number (.float x)) = some w ↔
    x.InRange ∧ ∃ n : Integer64, w = .number (.integer n) ∧ (n.val : ℚ) = x.value := by
  have range : twoTo 63 = 2 ^ 63 := rfl
  show integerOfFloat? x = some w ↔ _
  constructor
  · intro h
    obtain ⟨i, whole, h⟩ := Option.bind_eq_some_iff.mp h
    split at h
    · next inside =>
      obtain ⟨n, hn, rfl⟩ := Option.map_eq_some_iff.mp h
      rw [Integer64.ofInt?_eq_some_iff] at hn
      rw [Binary64.whole?_eq_some_iff] at whole
      exact ⟨⟨i, whole, by omega, by omega⟩, n, rfl, by rw [hn, whole]⟩
    · cases h
  · rintro ⟨⟨i, whole, lower, upper⟩, n, rfl, same⟩
    rw [whole, Int.cast_inj] at same
    have inside : i.natAbs < twoTo 63 := by omega
    have held : Value.ofInt? i = some (.number (.integer n)) :=
      Option.map_eq_some_iff.mpr ⟨n, Integer64.ofInt?_eq_some_iff.mpr same, rfl⟩
    rw [integerOfFloat?, Binary64.whole?_eq_some_iff.mpr whole]
    show (if i.natAbs < twoTo 63 then Value.ofInt? i else none) = _
    rw [if_pos inside, held]

theorem convert_float_eq_none_iff :
    ScalarType.integer.convert (.number (.float x)) = none ↔ ¬x.InRange := by
  rw [Option.eq_none_iff_forall_ne_some]
  constructor
  · rintro refused ⟨i, whole, lower, upper⟩
    let word : Integer64 := ⟨i, by omega, by omega⟩
    have held : (word.val : ℚ) = x.value := whole.symm
    exact refused _ (convert_float_iff.mpr ⟨⟨i, whole, lower, upper⟩, word, rfl, held⟩)
  · intro outside w h
    exact outside (convert_float_iff.mp h).1

/-- A number becomes the integer of its value. -/
theorem value_of_convert (h : ScalarType.integer.convert (.number n) = some w) :
    ∃ m : Integer64, w = .number (.integer m) ∧ (m.val : ℚ) = n.value := by
  cases n with
  | integer m =>
      rw [convert_of_admits rfl] at h
      exact ⟨m, (Option.some.inj h).symm, rfl⟩
  | float x => exact (convert_float_iff.mp h).2

/-- Only floats out of range are refused. -/
theorem convert_number_eq_none_iff : ScalarType.integer.convert (.number n) = none ↔
    ∃ x, n = .float x ∧ ¬x.InRange := by
  cases n with
  | integer m => simp [convert_of_admits (t := .integer) (v := .number (.integer m)) rfl]
  | float x =>
      rw [convert_float_eq_none_iff]
      simp

/-! ## All numbers -/

theorem isLeaf_number (n : Number) : (Value.number n).IsLeaf := nofun

/-- **Whole numbers become integers exactly.** A value that is made of integers and floats in
range is converted. Conversion replaces every number, at any depth, by the integer of its exact
value. A float out of range lets it fail, and it never fails at another number. -/
theorem Action.apply_convert_whole (v : Value) (fs : FileSystem) :
    ((∀ leaf, v.HasLeaf leaf → ∃ n, leaf = .number n ∧ ∀ x, n = .float x → x.InRange) →
      ∃ w, ((Action.convert .integer).apply v).run fs = .ok w fs) ∧
    (∀ w fs', ((Action.convert .integer).apply v).run fs = .ok w fs' →
      fs' = fs ∧ v.LeafByLeaf (fun a b => ∀ n, a = .number n →
        ∃ m : Integer64, b = .number (.integer m) ∧ (m.val : ℚ) = n.value) w) ∧
    (∀ x, v.HasLeaf (.number (.float x)) → ¬x.InRange →
      ∃ fault, ((Action.convert .integer).apply v).run fs = .error fault fs) ∧
    ∀ fault fs', ((Action.convert .integer).apply v).run fs = .error fault fs' →
      fs' = fs ∧ ∃ leaf, v.HasLeaf leaf ∧ fault = .notConvertible leaf .integer ∧
        ∀ n, leaf = .number n → ∃ x, n = .float x ∧ ¬x.InRange := by
  rw [run_convert]
  cases converted : convertLeaves .integer v with
  | ok w =>
      have replaced := convertLeaves_ok_iff.mp converted
      refine ⟨fun _ => ⟨w, rfl⟩, ?_, ?_, nofun⟩
      · intro u fs' same
        cases same
        exact ⟨rfl, replaced.imp fun a b h n number => value_of_convert (number ▸ h)⟩
      · intro x hleaf outside
        obtain ⟨b, hb⟩ := replaced.left hleaf
        rw [convert_float_eq_none_iff.mpr outside] at hb
        cases hb
  | error fault =>
      obtain ⟨leaf, hleaf, refused, rfl⟩ := convertLeaves_error converted
      have outside : ∀ n, leaf = .number n → ∃ x, n = .float x ∧ ¬x.InRange := by
        rintro n rfl
        exact convert_number_eq_none_iff.mp refused
      refine ⟨?_, nofun, fun _ _ _ => ⟨_, rfl⟩, ?_⟩
      · intro numbers
        obtain ⟨n, number, inside⟩ := numbers leaf hleaf
        obtain ⟨x, float, out⟩ := outside n number
        exact absurd (inside x float) out
      · intro fault fs' same
        cases same
        exact ⟨rfl, leaf, hleaf, rfl, outside⟩

/-- The greatest float in range. -/
def greatestFloat : Binary64 := ⟨false, 1086 * twoTo 52 - 1, by decide⟩

/-- The float of the upper end. -/
def upperFloat : Binary64 := ⟨false, 1086 * twoTo 52, by decide⟩

/-- The float of the lower end. -/
def lowerFloat : Binary64 := ⟨true, 1086 * twoTo 52, by decide⟩

theorem greatestFloat_value : greatestFloat.value = (9223372036854774784 : Int) :=
  Binary64.whole?_eq_some_iff.mp (by decide +kernel)

theorem upperFloat_value : upperFloat.value = (9223372036854775808 : Int) :=
  Binary64.whole?_eq_some_iff.mp (by decide +kernel)

theorem lowerFloat_value : lowerFloat.value = (-9223372036854775808 : Int) :=
  Binary64.whole?_eq_some_iff.mp (by decide +kernel)

/-- Up to the upper end a float becomes the integer of its value, and at the end it is refused. -/
theorem Action.apply_convert_whole_limits :
    let fs : FileSystem := ⟨[], []⟩
    let inside : Value := .array [.array [.number (.float greatestFloat)]]
    let outside : Value := .array [.array [.number (.float upperFloat)]]
    greatestFloat.InRange ∧ ¬upperFloat.InRange ∧
    (∃ w, ((Action.convert .integer).apply inside).run fs = .ok w fs ∧
      inside.LeafByLeaf (fun a b => ∀ n, a = .number n →
        ∃ m : Integer64, b = .number (.integer m) ∧ (m.val : ℚ) = n.value) w) ∧
    ∃ fault, ((Action.convert .integer).apply outside).run fs = .error fault fs := by
  intro fs inside outside
  have within : greatestFloat.InRange := (Binary64.inRange_iff greatestFloat_value).mpr (by omega)
  have beyond : ¬upperFloat.InRange := (Binary64.inRange_iff upperFloat_value).not.mpr (by omega)
  have hleaf : outside.HasLeaf (.number (.float upperFloat)) :=
    .item List.mem_cons_self (.item List.mem_cons_self (.self (isLeaf_number _)))
  obtain ⟨converts, exact, -, -⟩ := Action.apply_convert_whole inside fs
  obtain ⟨-, -, refuses, -⟩ := Action.apply_convert_whole outside fs
  obtain ⟨w, run⟩ := converts fun leaf h => by
    simp only [inside, Value.hasLeaf_array, List.mem_singleton, exists_eq_left] at h
    rw [Value.eq_of_hasLeaf (isLeaf_number _) h]
    exact ⟨_, rfl, fun x float => Number.float.inj float ▸ within⟩
  exact ⟨within, beyond, ⟨w, run, (exact w fs run).2⟩, refuses upperFloat hleaf beyond⟩

/-- The lower end is a signed word, and as a float it is refused. -/
theorem lower_end_refused :
    let fs : FileSystem := ⟨[], []⟩
    lowerFloat.value = -2 ^ 63 ∧ (∃ n : Integer64, n.val = -2 ^ 63) ∧
    ((Action.convert .integer).apply (.number (.float lowerFloat))).run fs =
      .error (.notConvertible (.number (.float lowerFloat)) .integer) fs := by
  intro fs
  have beyond : ¬lowerFloat.InRange := (Binary64.inRange_iff lowerFloat_value).not.mpr (by omega)
  refine ⟨?_, ⟨⟨-2 ^ 63, by decide, by decide⟩, rfl⟩, ?_⟩
  · rw [lowerFloat_value]
    norm_num
  · rw [run_convert, convertLeaves_leaf (isLeaf_number _), convert_float_eq_none_iff.mpr beyond]

end ParamTree
