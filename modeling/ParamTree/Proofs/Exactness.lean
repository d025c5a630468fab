import ParamTree.Proofs.Scalars

/-!
# Numbers that are not rounded

A word is rounded where it is read as a float, for instance to compare it with one. A
whole number that a float holds exactly is rounded to this float
(`Integer64.sameAs_of_whole`): its code is the one that `nearestCode` finds, since the
quotient it takes at the step of the code leaves no remainder (`nearestCode_whole`).
-/

namespace ParamTree

theorem twoTo_lt_iff {m n : Nat} : twoTo m < twoTo n ↔ m < n :=
  Nat.pow_lt_pow_iff_right (by decide)

namespace Binary64

theorem roundHalfEven_mul {b : Nat} (hb : 0 < b) (m : Nat) : roundHalfEven (m * b) b = m := by
  simp [roundHalfEven, Nat.mul_div_cancel m hb, hb]

/-- A code beyond the first two binades counts a significand of 53 bits in steps of a
power of two. -/
theorem units_large {code : Nat} (h : twoTo 53 ≤ code) :
    ∃ e m, code = (e + 1) * twoTo 52 + m ∧ m < twoTo 52 ∧ 1 ≤ e ∧
      units code = (twoTo 52 + m) * twoTo e := by
  have hunit : 0 < twoTo 52 := twoTo_pos 52
  have hcarry : twoTo 53 = 2 * twoTo 52 := twoTo_succ 52
  have hexponent : 2 ≤ code / twoTo 52 := by
    rw [Nat.le_div_iff_mul_le hunit]
    omega
  have hsplit := Nat.div_add_mod code (twoTo 52)
  refine ⟨code / twoTo 52 - 1, code % twoTo 52, ?_, Nat.mod_lt _ hunit, by omega, ?_⟩
  · rw [Nat.sub_add_cancel (by omega), Nat.mul_comm]
    exact hsplit.symm
  · rw [units, if_neg (by omega)]

/-- A whole number has as many binary digits as its significand and its step say. -/
theorem log2_of_units {n e m : Nat} (hn : n ≠ 0) (hm : m < twoTo 52)
    (h : (twoTo 52 + m) * twoTo e = n * twoTo 1074) : n.log2 + 1074 = 52 + e := by
  have hcarry : twoTo 53 = 2 * twoTo 52 := twoTo_succ 52
  have lower : twoTo n.log2 ≤ n := Nat.log2_self_le hn
  have upper : n < twoTo (n.log2 + 1) := Nat.lt_log2_self
  have above : n.log2 + 1074 < 53 + e := by
    rw [← twoTo_lt_iff, twoTo_add, twoTo_add]
    calc twoTo n.log2 * twoTo 1074
        ≤ n * twoTo 1074 := Nat.mul_le_mul_right _ lower
      _ = (twoTo 52 + m) * twoTo e := h.symm
      _ < twoTo 53 * twoTo e := Nat.mul_lt_mul_of_pos_right (by omega) (twoTo_pos e)
  have below : 52 + e < n.log2 + 1 + 1074 := by
    rw [← twoTo_lt_iff, twoTo_add, twoTo_add]
    calc twoTo 52 * twoTo e
        ≤ (twoTo 52 + m) * twoTo e := Nat.mul_le_mul_right _ (Nat.le_add_right _ m)
      _ = n * twoTo 1074 := h
      _ < twoTo (n.log2 + 1) * twoTo 1074 := Nat.mul_lt_mul_of_pos_right upper (twoTo_pos 1074)
  omega

/-- The code of a whole number is the code nearest to it. -/
theorem nearestCode_whole {n code : Nat} (h : units code = n * twoTo 1074) :
    nearestCode n 1 = code := by
  rcases Nat.lt_or_ge code (twoTo 53) with hsmall | hlarge
  · -- a code so small stands for less than one
    have hrange : twoTo 53 < twoTo 1074 := twoTo_lt_iff.mpr (by decide)
    rw [units, if_pos hsmall] at h
    have hzero : n = 0 := by
      rcases Nat.eq_zero_or_pos n with hn | hn
      · exact hn
      · have hone := Nat.le_mul_of_pos_left (twoTo 1074) hn
        omega
    subst hzero
    simp [nearestCode, h]
  · obtain ⟨e, m, rfl, hm, he, hunits⟩ := units_large hlarge
    rw [hunits] at h
    have hpos : n ≠ 0 := by
      rintro rfl
      have hp := Nat.mul_pos (Nat.add_pos_left (twoTo_pos 52) m) (twoTo_pos e)
      omega
    have hlog := log2_of_units hpos hm h
    have hone : Nat.log2 1 = 0 := by decide
    have hcarry : twoTo 53 = 2 * twoTo 52 := twoTo_succ 52
    obtain ⟨d, rfl⟩ : ∃ d, e = d + 1 := ⟨e - 1, by omega⟩
    have hstep : 1021 + n.log2 = d := by omega
    -- the first quotient has 54 bits, so the doubled step is taken, and it divides exactly
    have hquotient : ¬n * twoTo 1074 / twoTo d < twoTo 53 := by
      rw [← h, twoTo_succ d, ← Nat.mul_assoc, Nat.mul_div_cancel _ (twoTo_pos d)]
      omega
    simp only [nearestCode, hone, Nat.sub_zero, Nat.one_mul, hstep, if_neg hpos, if_neg hquotient]
    rw [← h, ← twoTo_succ, roundHalfEven_mul (twoTo_pos _)]
    have hsum : (d + 1 + 1) * twoTo 52 = (d + 1) * twoTo 52 + twoTo 52 := Nat.succ_mul _ _
    omega

/-- A float without fraction has the magnitude of its integer, and its sign unless it is zero. -/
theorem whole?_spec {x : Binary64} {i : Int} (h : x.whole? = some i) :
    units x.code = i.natAbs * twoTo 1074 ∧ (i = 0 ∨ x.negative = decide (i < 0)) := by
  unfold whole? at h
  split at h
  · next hmod =>
    have hmagnitude : units x.code = x.magnitude / twoTo 1074 * twoTo 1074 :=
      (Nat.div_mul_cancel (Nat.dvd_of_mod_eq_zero hmod)).symm
    rw [← Int.natCast_ediv, Option.some.injEq] at h
    rw [hmagnitude]
    generalize x.magnitude / twoTo 1074 = k at h
    cases hneg : x.negative with
    | true =>
        obtain rfl : -(k : Int) = i := by simpa [hneg] using h
        exact ⟨by simp, by simp; omega⟩
    | false =>
        obtain rfl : (k : Int) = i := by simpa [hneg] using h
        exact ⟨by simp, by simp⟩
  · cases h

end Binary64

/-- A word that a float holds exactly is rounded to this float, the sign of zero aside. -/
theorem Integer64.sameAs_of_whole {n : Integer64} {x : Binary64} (h : x.whole? = some n.val) :
    n.toBinary64.sameAs x = true := by
  obtain ⟨hunits, hsign⟩ := Binary64.whole?_spec h
  have hcode := Binary64.nearestCode_whole hunits
  have hfloat : n.toBinary64 = ⟨n.val < 0, x.code, x.code_lt⟩ := by
    simp [toBinary64, Binary64.ofRatio?, hcode, x.code_lt]
  rcases hsign with hzero | hsign
  · have hzero : x.code = 0 := by
      rw [← hcode, hzero]
      rfl
    simp [hfloat, Binary64.sameAs, hzero]
  · simp [hfloat, Binary64.sameAs, hsign]

end ParamTree
