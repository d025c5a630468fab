import Mathlib.Data.List.Forall2
import ParamTree.Proofs.Building
import ParamTree.Proofs.Run
import ParamTree.Proofs.Scalars

/-!
# Conversion

An action that converts a value goes down its sequences and converts what it finds below
them, leaf by leaf, so what comes out is nested as what went in (`convertLeaves_ok_iff`).
A leaf is coerced if it can be and converted more freely otherwise. Either way it gets the
type (`convert_admits`), and a value of the type is left alone (`convert_of_admits`): a
second conversion changes nothing.
-/

namespace ParamTree

open FileM

variable {t : ScalarType} {v w leaf : Value} {R S : Value → Value → Prop}

namespace Value

/-! ## Leaves -/

/-- Is the value no sequence? -/
def IsLeaf (v : Value) : Prop := ∀ items, v ≠ .array items

/-- `v.HasLeaf leaf`: sequences alone lead from `v` down to the leaf. -/
inductive HasLeaf : Value → Value → Prop
  | self {leaf : Value} (h : leaf.IsLeaf) : HasLeaf leaf leaf
  | item {items : List Value} {v leaf : Value} (hv : v ∈ items) (h : v.HasLeaf leaf) :
      HasLeaf (.array items) leaf

/-- `v.LeafByLeaf R w`: the two are nested alike, in sequences of the same lengths, and
each leaf of `v` is in relation to the leaf in its place in `w`. -/
inductive LeafByLeaf (R : Value → Value → Prop) : Value → Value → Prop
  | leaf {v w : Value} (hv : v.IsLeaf) (hw : w.IsLeaf) (h : R v w) : LeafByLeaf R v w
  | items {vs ws : List Value} (length : vs.length = ws.length)
      (each : ∀ p ∈ vs.zip ws, LeafByLeaf R p.1 p.2) : LeafByLeaf R (.array vs) (.array ws)

theorem hasLeaf_array {items : List Value} :
    (Value.array items).HasLeaf leaf ↔ ∃ v ∈ items, v.HasLeaf leaf := by
  constructor
  · rintro (isLeaf | ⟨hv, h⟩)
    · exact absurd rfl (isLeaf items)
    · exact ⟨_, hv, h⟩
  · rintro ⟨v, hv, h⟩
    exact .item hv h

theorem eq_of_hasLeaf (hv : v.IsLeaf) (h : v.HasLeaf leaf) : leaf = v := by
  cases h with
  | self => rfl
  | item => exact absurd rfl (hv _)

/-- What holds of every leaf, and of a sequence as soon as it holds of its items, holds of
every value. -/
@[elab_as_elim]
theorem leafInduction {motive : Value → Prop} (leaf : ∀ v, v.IsLeaf → motive v)
    (items : ∀ vs, (∀ v ∈ vs, motive v) → motive (.array vs)) : ∀ v, motive v
  | .array vs => items vs fun v _ => leafInduction leaf items v
  | .null | .bool _ | .number _ | .string _ | .object _ => leaf _ nofun
termination_by v => sizeOf v

theorem LeafByLeaf.imp (h : v.LeafByLeaf R w) (hRS : ∀ a b, R a b → S a b) :
    v.LeafByLeaf S w := by
  induction h with
  | leaf hv hw h => exact .leaf hv hw (hRS _ _ h)
  | items length _ ih => exact .items length ih

/-- Every leaf on the left has its partner. -/
theorem LeafByLeaf.left (h : v.LeafByLeaf R w) (hleaf : v.HasLeaf leaf) : ∃ b, R leaf b := by
  induction h with
  | leaf hv hw h =>
      obtain rfl := eq_of_hasLeaf hv hleaf
      exact ⟨_, h⟩
  | items length _ ih =>
      obtain ⟨u, hu, hleaf⟩ := hasLeaf_array.mp hleaf
      obtain ⟨_, hp⟩ := exists_mem_zip_left length hu
      exact ih _ hp hleaf

/-- Every leaf on the right has its partner. -/
theorem LeafByLeaf.right (h : v.LeafByLeaf R w) (hleaf : w.HasLeaf leaf) : ∃ a, R a leaf := by
  induction h with
  | leaf hv hw h =>
      obtain rfl := eq_of_hasLeaf hw hleaf
      exact ⟨_, h⟩
  | items length _ ih =>
      obtain ⟨u, hu, hleaf⟩ := hasLeaf_array.mp hleaf
      obtain ⟨_, hp⟩ := exists_mem_zip_right length hu
      exact ih _ hp hleaf

/-- A value is nested as itself. -/
theorem LeafByLeaf.self (h : ∀ leaf, v.HasLeaf leaf → R leaf leaf) : v.LeafByLeaf R v := by
  induction v using leafInduction with
  | leaf v isLeaf => exact .leaf isLeaf isLeaf (h v (.self isLeaf))
  | items vs ih =>
      have each : List.Forall₂ (LeafByLeaf R) vs vs :=
        List.forall₂_same.mpr fun v hv => ih v hv fun leaf hleaf => h leaf (.item hv hleaf)
      exact .items rfl fun p hp => (List.forall₂_iff_zip.mp each).2 hp

end Value

/-! ## One leaf -/

theorem admits_ofInt? {i : Int} (h : Value.ofInt? i = some w) : ScalarType.integer.admits w := by
  obtain ⟨n, -, rfl⟩ := Option.map_eq_some_iff.mp h
  rfl

theorem convertOther_admits (h : t.convertOther v = some w) : t.admits w := by
  unfold ScalarType.convertOther at h
  split at h
  · cases h
    rfl
  · cases h
    rfl
  · -- an integer comes from a whole float only
    obtain ⟨i, -, h⟩ := Option.bind_eq_some_iff.mp h
    split at h
    · exact admits_ofInt? h
    · cases h
  · exact admits_ofInt? h
  · cases h
    rfl
  · cases h
    rfl
  · cases h

theorem convert_of_coerce (h : t.coerce v = some w) : t.convert v = some w := by
  rw [ScalarType.convert, h]

/-- Conversion gives a value of the type. -/
theorem convert_admits (h : t.convert v = some w) : t.admits w := by
  unfold ScalarType.convert at h
  split at h
  · next c coerced =>
    cases h
    have typed : (Primitive.typed t).coerce v = some w := coerced
    exact coerce_admits typed
  · exact convertOther_admits h

/-- A value of the type is converted to itself. -/
theorem convert_of_admits (h : t.admits v = true) : t.convert v = some v :=
  convert_of_coerce (coerce_of_admits h)

/-- No sequence has a scalar type. -/
theorem isLeaf_of_admits (h : t.admits v = true) : v.IsLeaf := by
  rintro items rfl
  cases t <;> cases h

/-! ## All leaves -/

theorem convertLeaves_leaf (h : v.IsLeaf) : convertLeaves t v =
    match t.convert v with
    | some w => .ok w
    | none => .error (.notConvertible v t) := convertLeaves.eq_2 t v h

theorem convertItems_eq_mapM (vs : List Value) : convertItems t vs = vs.mapM (convertLeaves t) := by
  induction vs with
  | nil => rfl
  | cons v vs ih => rw [convertItems, ih, List.mapM_cons]

/-- Conversion replaces each leaf by what it is converted to and touches nothing else. -/
theorem convertLeaves_ok_iff :
    convertLeaves t v = .ok w ↔ v.LeafByLeaf (fun a b => t.convert a = some b) w := by
  constructor
  · intro h
    induction v using Value.leafInduction generalizing w with
    | leaf v isLeaf =>
        rw [convertLeaves_leaf isLeaf] at h
        split at h
        · next converted =>
          cases h
          exact .leaf isLeaf (isLeaf_of_admits (convert_admits converted)) converted
        · cases h
    | items vs ih =>
        rw [convertLeaves] at h
        obtain ⟨ws, hws, h⟩ := except_bind_ok.mp h
        obtain rfl := except_pure_ok.mp h
        rw [convertItems_eq_mapM] at hws
        obtain ⟨length, each⟩ := mapM_ok_iff.mp hws
        exact .items length fun p hp => ih p.1 (List.of_mem_zip hp).1 (each p hp)
  · intro h
    induction h with
    | leaf isLeaf _ h => rw [convertLeaves_leaf isLeaf, h]
    | items length _ ih =>
        rw [convertLeaves, convertItems_eq_mapM, mapM_ok_iff.mpr ⟨length, ih⟩]
        rfl

/-- Conversion fails at a leaf only, and names it. -/
theorem convertLeaves_error {fault : ActionFault} (h : convertLeaves t v = .error fault) :
    ∃ leaf, v.HasLeaf leaf ∧ t.convert leaf = none ∧ fault = .notConvertible leaf t := by
  induction v using Value.leafInduction with
  | leaf v isLeaf =>
      rw [convertLeaves_leaf isLeaf] at h
      split at h
      · cases h
      · next refused =>
        cases h
        exact ⟨v, .self isLeaf, refused, rfl⟩
  | items vs ih =>
      rw [convertLeaves, except_bind_error, convertItems_eq_mapM] at h
      rcases h with h | ⟨ws, -, h⟩
      · obtain ⟨u, hu, failed⟩ := exists_of_mapM_error h
        obtain ⟨leaf, hleaf, refused⟩ := ih u hu failed
        exact ⟨leaf, .item hu hleaf, refused⟩
      · cases h

/-! ## The action -/

variable {fs fs' : FileSystem}

theorem run_convert (t : ScalarType) (v : Value) (fs : FileSystem) :
    ((Action.convert t).apply v).run fs =
      match convertLeaves t v with
      | .ok w => .ok w fs
      | .error fault => .error fault fs := by
  rw [Action.apply]
  cases convertLeaves t v <;> rfl

theorem run_convert_ok : ((Action.convert t).apply v).run fs = .ok w fs' ↔
    fs' = fs ∧ v.LeafByLeaf (fun a b => t.convert a = some b) w := by
  rw [run_convert, ← convertLeaves_ok_iff]
  cases convertLeaves t v with
  | ok u => simp [eq_comm, and_comm]
  | error fault => simp

/-- **Conversion is exact, typed and idempotent.** It succeeds exactly if every leaf that
sequences lead to can be converted. Then the result is nested as the value was, with each
leaf replaced by what it is converted to, and that is what it is coerced to wherever it can
be; every leaf of the result has the type, and converting it again changes nothing. -/
theorem Action.apply_convert (t : ScalarType) (v : Value) (fs : FileSystem) :
    ((∃ w, ((Action.convert t).apply v).run fs = .ok w fs) ↔
      ∀ leaf, v.HasLeaf leaf → (t.convert leaf).isSome) ∧
    ∀ w fs', ((Action.convert t).apply v).run fs = .ok w fs' →
      fs' = fs ∧
      v.LeafByLeaf (fun a b => t.convert a = some b ∧ ∀ c, t.coerce a = some c → b = c) w ∧
      (∀ leaf, w.HasLeaf leaf → t.admits leaf) ∧
      ((Action.convert t).apply w).run fs = .ok w fs := by
  constructor
  · constructor
    · rintro ⟨w, run⟩ leaf hleaf
      obtain ⟨-, replaced⟩ := run_convert_ok.mp run
      exact Option.isSome_iff_exists.mpr (replaced.left hleaf)
    · intro convertible
      rw [run_convert]
      cases h : convertLeaves t v with
      | ok w => exact ⟨w, rfl⟩
      | error fault =>
          obtain ⟨leaf, hleaf, refused, -⟩ := convertLeaves_error h
          have := convertible leaf hleaf
          rw [refused] at this
          cases this
  · intro w fs' run
    obtain ⟨same, replaced⟩ := run_convert_ok.mp run
    have typed : ∀ leaf, w.HasLeaf leaf → t.admits leaf = true := by
      intro leaf hleaf
      obtain ⟨a, ha⟩ := replaced.right hleaf
      exact convert_admits ha
    refine ⟨same, replaced.imp fun a b hb => ⟨hb, fun c hc => ?_⟩, typed, ?_⟩
    · rw [convert_of_coerce hc] at hb
      exact (Option.some.inj hb).symm
    · exact run_convert_ok.mpr ⟨rfl, .self fun leaf hleaf => convert_of_admits (typed leaf hleaf)⟩

/-- Sizes in several forms, the last of them a float. -/
def mixedSizes : Value :=
  .array [.bool false, .array [.string " 9 ", .array []],
    .number (.float ⟨false, 1026 * twoTo 52, by decide⟩)]

/-- The same sizes as integers. -/
def wholeSizes : Value :=
  .array [.number (.integer ⟨0, by decide, by decide⟩),
    .array [.number (.integer ⟨9, by decide, by decide⟩), .array []],
    .number (.integer ⟨8, by decide, by decide⟩)]

theorem Action.apply_convert_sizes :
    let fs : FileSystem := ⟨[], []⟩
    ((Action.convert .integer).apply mixedSizes).run fs = .ok wholeSizes fs ∧
      (∀ leaf, mixedSizes.HasLeaf leaf → (ScalarType.integer.convert leaf).isSome) ∧
      mixedSizes.LeafByLeaf (fun a b => ScalarType.integer.convert a = some b ∧
        ∀ c, ScalarType.integer.coerce a = some c → b = c) wholeSizes ∧
      (∀ leaf, wholeSizes.HasLeaf leaf → ScalarType.integer.admits leaf) ∧
      ((Action.convert .integer).apply wholeSizes).run fs = .ok wholeSizes fs := by
  intro fs
  obtain ⟨succeeds, result⟩ := Action.apply_convert .integer mixedSizes fs
  have converted : convertLeaves .integer mixedSizes = .ok wholeSizes := by decide +kernel
  have run : ((Action.convert .integer).apply mixedSizes).run fs = .ok wholeSizes fs := by
    rw [run_convert, converted]
  obtain ⟨-, replaced, typed, again⟩ := result wholeSizes fs run
  exact ⟨run, succeeds.mp ⟨_, run⟩, replaced, typed, again⟩

end ParamTree
