import ParamTree.Proofs.Scalars
import ParamTree.Proofs.Traversal

/-!
# Fitting is stable under shaping

Shaping to an alternative of a union changes a value in few ways: elements and entries
are shaped, undeclared ones never appear, and a text may become what it stands for.
`Refines v w` lists these ways. In a steady tree shaping refines, and the shaped value
fits where it was shaped (`shape_alternative`); a refined value fits nothing that the
raw value did not fit (`fits_of_refines`). So the alternative that a union takes for a
value is the one that it takes for the shaped value.
-/

namespace ParamTree

open FileM

/-! ## Steady trees -/

namespace Node

/-- A sequence that takes sequences and nothing else: it has no actions, and null is
not its default. Other nodes are not restricted. -/
def Strict (n : Node) : Prop := n.isArray → n.attrs.actions = [] ∧ n.attrs.admitsNull = false

/-- Does resolving the node's output again change nothing? Only sequences wrap, an
enumeration lists texts, and a union's own alternatives are strict. -/
def Steady (n : Node) : Prop :=
  (∀ action ∈ n.attrs.actions, action = .makeList ∧ n.isArray) ∧
    match n with
    | .scalar _ _ (some allowed) => ∀ literal ∈ allowed, ∃ s, literal = .string s
    | .union _ alternatives => ∀ m ∈ alternatives, m.Strict
    | _ => True

theorem Steady.strict {a : Attributes} {alternatives : List Node} {n : Node}
    (h : (Node.union a alternatives).Steady) (hn : n ∈ alternatives) : n.Strict := h.2 n hn

theorem Steady.literals {a : Attributes} {type : Primitive} {allowed : List Value}
    (h : (Node.scalar a type (some allowed)).Steady) {v : Value} (hv : v ∈ allowed) :
    ∃ s, v = .string s := h.2 v hv

/-- What stands in a union of a steady tree has no actions. -/
theorem Steady.actions_eq_nil {n : Node} (h : n.Steady) (strict : n.Strict) :
    n.attrs.actions = [] := by
  cases hn : n.isArray with
  | true => exact (strict hn).1
  | false =>
      refine List.eq_nil_iff_forall_not_mem.mpr fun action ha => ?_
      have hArray := (h.1 action ha).2
      rw [hn] at hArray
      cases hArray

/-- A union of a steady tree does not wrap. -/
theorem Steady.makesList_eq_false {a : Attributes} {alternatives : List Node}
    (h : (Node.union a alternatives).Steady) : a.makesList = false := by
  rw [Attributes.makesList, List.any_eq_false]
  intro action ha
  cases (h.1 action ha).2

end Node

namespace Resolve

variable {fs fs' : FileSystem} {path : ParamPath} {v w : Value}

/-! ## Refined values -/

/-- `Refines v w`: shaping `v` may give `w`. -/
inductive Refines : Value → Value → Prop
  | refl (v : Value) : Refines v v
  | sequence (vs ws : List Value) : Refines (.array vs) (.array ws)
  /-- No key is lost. -/
  | mapping {entries fields : Entries}
      (keys : ∀ key ∈ entries.map Prod.fst, key ∈ fields.map Prod.fst) :
      Refines (.object entries) (.object fields)
  /-- The text stands for the value. -/
  | text {t : ScalarType} {s : String} {w : Value} (h : ReadAs s t w) : Refines (.string s) w

theorem Refines.isNull_eq (h : Refines v w) : v.isNull = w.isNull := by
  cases h with
  | refl | sequence | mapping => rfl
  | text h => cases h <;> rfl

/-- Only null is refined to null. -/
theorem Refines.eq_of_isNull (h : Refines v w) (hw : w.isNull) : v = w := by
  rw [← h.isNull_eq] at hw
  cases h with
  | refl => rfl
  | sequence | mapping | text => cases hw

/-- Only a text is refined to a text, namely to itself. -/
theorem Refines.eq_of_text {s : String} (h : Refines v (.string s)) : v = .string s := by
  cases h with
  | refl => rfl
  | text h =>
      cases h
      rfl

theorem refines_of_coerce {type : Primitive} (h : type.coerce v = some w) : Refines v w := by
  by_cases htext : ∃ s, v = .string s
  · obtain ⟨s, rfl⟩ := htext
    cases type with
    | any =>
        cases h
        exact .refl _
    | typed t => exact .text (readAs_of_ofText h)
  · rw [coerce_of_not_text (fun s hs => htext ⟨s, hs⟩) h]
    exact .refl v

/-! ## Scalars -/

/-- What a scalar of a steady tree is shaped to: the coerced value, which shapes to
itself. -/
theorem shapeScalar_steady {a : Attributes} {type : Primitive} {choices : Option (List Value)}
    (steady : (Node.scalar a type choices).Steady) (h : shapeScalar type choices path v = .ok w) :
    type.coerce v = some w ∧ fitsScalar type choices w = true ∧
      shapeScalar type choices path w = .ok w := by
  obtain ⟨read, hread, htaken⟩ := shapeScalar_ok.mp h
  obtain rfl : read = w := by
    cases choices with
    | none => exact Option.some.inj htaken
    | some allowed => exact (enumMember_text (fun _ => steady.literals) htaken).1
  have again := coerce_coerce hread
  exact ⟨hread, fitsScalar_iff.mpr ⟨read, read, again, htaken⟩,
    shapeScalar_ok.mpr ⟨read, again, htaken⟩⟩

/-- What a value is refined to has its type only if the value can be read so. -/
theorem coerce_of_refines {type : Primitive} (h : Refines v w) (hnot : ∀ s, w ≠ .string s)
    (hw : type.coerce w = some w) : ∃ read, type.coerce v = some read := by
  cases h with
  | refl => exact ⟨_, hw⟩
  | sequence | mapping =>
      cases type with
      | any => exact ⟨_, rfl⟩
      | typed t => cases t <;> cases hw
  | text h =>
      cases type with
      | any => exact ⟨_, rfl⟩
      | typed t =>
          change t.coerce w = some w at hw
          rw [ScalarType.coerce.eq_2 _ _ hnot] at hw
          split at hw
          · next hadmits => exact Option.isSome_iff_exists.mp (ofText_of_admits h hadmits)
          · cases hw

theorem fitsScalar_of_refines {a : Attributes} {type : Primitive} {choices : Option (List Value)}
    (steady : (Node.scalar a type choices).Steady) (h : Refines v w)
    (hw : fitsScalar type choices w = true) : fitsScalar type choices v = true := by
  by_cases htext : ∃ s, w = .string s
  · obtain ⟨s, rfl⟩ := htext
    rw [h.eq_of_text]
    exact hw
  · have hnot : ∀ s, w ≠ .string s := fun s hs => htext ⟨s, hs⟩
    obtain ⟨literal, u, hu, htaken⟩ := fitsScalar_iff.mp hw
    obtain rfl := coerce_of_not_text hnot hu
    cases choices with
    | none =>
        obtain ⟨read, hread⟩ := coerce_of_refines h hnot hu
        exact fitsScalar_iff.mpr ⟨read, read, hread, rfl⟩
    | some allowed =>
        -- the literals are texts, and the shaped value is none
        obtain ⟨rfl, hs⟩ := enumMember_text (fun _ => steady.literals) htaken
        exact absurd hs htext

/-! ## Alternatives -/

theorem fitsAny_iff {wraps : Bool} {alternatives : List Node} :
    fitsAny wraps v alternatives = true ↔ ∃ n ∈ alternatives, fits wraps v n = true := by
  induction alternatives with
  | nil => simp [fitsAny]
  | cons n rest ih => simp [fitsAny, ih]

/-- A strict sequence fits sequences and nothing else. -/
theorem fits_strict_array {a : Attributes} {items : Node} (strict : (Node.array a items).Strict) :
    fits false v (.array a items) = true ↔ ∃ vs, v = .array vs := by
  obtain ⟨hactions, hnull⟩ := strict rfl
  have hlist : a.makesList = false := by
    rw [Attributes.makesList, show a.actions = [] from hactions]
    rfl
  have hnull : a.admitsNull = false := hnull
  cases v <;> simp [fits, Value.isNull, fitsArray, hnull, hlist]

/-- Nothing that does not fit a strict alternative fits it after shaping. -/
theorem fits_of_refines {n : Node} (steady : n.Every Node.Steady) (strict : n.Strict)
    (h : Refines v w) (hw : fits false w n = true) : fits false v n = true := by
  cases hnull : w.isNull with
  | true =>
      rw [h.eq_of_isNull hnull]
      exact hw
  | false =>
      -- null is refined from null alone, so both values are present from here on
      have hpresent : v.isNull = false := h.isNull_eq.trans hnull
      induction n using Node.treeInduction with
      | object a properties =>
          simp only [fits, hnull, hpresent, Bool.false_eq_true, if_false] at hw ⊢
          cases h with
          | refl => exact hw
          | sequence => cases hw
          | mapping keys =>
              simp only [fitsObject, List.all_eq_true, lookup_isSome_iff_mem] at hw ⊢
              intro entry hentry
              obtain ⟨field, hfield, hkey⟩ :=
                List.mem_map.mp (keys entry.1 (List.mem_map_of_mem hentry))
              exact hkey ▸ hw field hfield
          | text h => cases h <;> cases hw
      | array a items =>
          obtain ⟨ws, rfl⟩ := (fits_strict_array strict).mp hw
          refine (fits_strict_array strict).mpr ?_
          cases h with
          | refl | sequence => exact ⟨_, rfl⟩
          | text h => cases h
      | union a alternatives ih =>
          simp only [fits, hnull, hpresent, Bool.false_eq_true, if_false] at hw ⊢
          obtain ⟨m, hm, hfits⟩ := fitsAny_iff.mp hw
          have hv := ih m hm (steady.alternative hm) (steady.self.strict hm) hfits
          exact fitsAny_iff.mpr ⟨m, hm, hv⟩
      | scalar a type choices =>
          simp only [fits, hnull, hpresent, Bool.false_eq_true, if_false] at hw ⊢
          exact fitsScalar_of_refines steady.self h hw

theorem fits_null {wraps : Bool} {n : Node} : fits wraps .null n = n.attrs.admitsNull := by
  cases n <;> rfl

/-- Null fits where it is the default alone, and there it is not shaped any further. -/
theorem present_of_fits {wraps : Bool} {n : Node} (h : fits wraps v n = true)
    (given : (v.isNull && n.attrs.admitsNull) = false) : v.isNull = false := by
  cases hv : v.isNull with
  | false => rfl
  | true =>
      obtain rfl := Value.isNull_iff.mp hv
      rw [fits_null] at h
      rw [hv, h] at given
      cases given

/-- A strict alternative gets the value itself. -/
theorem wrapFor_eq {n : Node} (strict : n.Strict) (h : fits false v n = true) :
    wrapFor n v = v := by
  cases n with
  | array a items =>
      obtain ⟨vs, rfl⟩ := (fits_strict_array strict).mp h
      rfl
  | object | union | scalar => rfl

/-- Shaping a value to a strict alternative that it fits refines it, and the shaped
value fits the alternative again. -/
theorem shape_alternative {n : Node} (steady : n.Every Node.Steady) (strict : n.Strict)
    (hfits : fits false v n = true) (run : (shape path v n).run fs = .ok w fs') :
    Refines v w ∧ fits false w n = true := by
  induction n using Node.treeInduction generalizing fs' with
  | object a properties =>
      rcases shape_run_ok.mp run with ⟨rfl, -, rfl, -⟩ | ⟨-, run⟩
      · exact ⟨.refl _, hfits⟩
      obtain ⟨fields, fs₁, hfields, run⟩ := run_bind_ok.mp run
      obtain ⟨rfl, -⟩ := run_pure_ok.mp run
      obtain ⟨entries, hsup, hfill⟩ := contents_ok.mp hfields
      obtain ⟨rfl, hkeys⟩ := supplied_ok.mp hsup
      have hdeclared := fill_keys hfill
      refine ⟨.mapping fun key hkey => hdeclared ▸ hkeys key hkey, ?_⟩
      simp only [fits, Value.isNull, Bool.false_eq_true, if_false, fitsObject,
        List.all_eq_true, lookup_isSome_iff_mem]
      intro field hfield
      rw [← hdeclared]
      exact List.mem_map_of_mem hfield
  | array a items =>
      rcases shape_run_ok.mp run with ⟨rfl, -, rfl, -⟩ | ⟨-, run⟩
      · exact ⟨.refl _, hfits⟩
      obtain ⟨vs, rfl⟩ := (fits_strict_array strict).mp hfits
      obtain ⟨elements, fs₁, -, run⟩ := run_bind_ok.mp run
      obtain ⟨ws, fs₂, -, run⟩ := run_bind_ok.mp run
      obtain ⟨rfl, -⟩ := run_pure_ok.mp run
      exact ⟨.sequence vs ws, (fits_strict_array strict).mpr ⟨ws, rfl⟩⟩
  | union a alternatives ih =>
      rcases shape_run_ok.mp run with ⟨rfl, -, rfl, -⟩ | ⟨hgiven, run⟩
      · exact ⟨.refl _, hfits⟩
      rw [shapeGiven, steady.self.makesList_eq_false] at run
      obtain ⟨before, m, after, rfl, -, hm, hvalue⟩ := shapeFirst_ok run
      have hmem : m ∈ before ++ m :: after := by simp
      have strictM := steady.self.strict hmem
      have steadyM := steady.alternative hmem
      obtain ⟨shaped, fs₁, hshape, hfinish⟩ := run_bind_ok.mp hvalue
      obtain rfl := finish_plain (steadyM.self.actions_eq_nil strictM) hfinish
      rw [wrapFor_eq strictM hm] at hshape
      obtain ⟨hrefines, hagain⟩ := ih m hmem steadyM strictM hm hshape
      refine ⟨hrefines, ?_⟩
      rw [fits, ← hrefines.isNull_eq, present_of_fits hfits hgiven, if_neg Bool.false_ne_true]
      exact fitsAny_iff.mpr ⟨m, hmem, hagain⟩
  | scalar a type choices =>
      rcases shape_run_ok.mp run with ⟨rfl, -, rfl, -⟩ | ⟨hgiven, run⟩
      · exact ⟨.refl _, hfits⟩
      obtain ⟨hcoerce, hagain, -⟩ := shapeScalar_steady steady.self (run_liftExcept_ok.mp run).1
      have hrefines := refines_of_coerce hcoerce
      refine ⟨hrefines, ?_⟩
      rw [fits, ← hrefines.isNull_eq, present_of_fits hfits hgiven, if_neg Bool.false_ne_true]
      exact hagain

end Resolve

end ParamTree
