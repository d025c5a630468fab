import ParamTree.Proofs.Failures
import ParamTree.Proofs.Fitting
import ParamTree.Proofs.Flags

/-!
# What a selected alternative takes

`fits` decides which alternative of a union a value goes to, and `shape` resolves it
there. The two agree on every kind of node: a selected alternative fails at elements,
at properties or in actions and checks, never because the value itself is refused. The
one exception is a union that stands directly in a union. `fits` asks the outer one
whether it makes lists, `shape` asks the inner one, so where only the outer one does a
scalar may be selected and then refused (`shape_selected`); `Schema.nestedSchema` is a
schema with which that happens.
-/

namespace ParamTree

open FileM Resolve ResolveError

/-- Is the value a sequence or a mapping? -/
def Value.isCollection : Value → Bool
  | .array _ | .object _ => true
  | _ => false

/-- `n.WrapsLike wraps`: along every chain of unions from the node on, each makes lists
if the one around it does. Around the node stands one for which `wraps` says so. -/
inductive Node.WrapsLike : Bool → Node → Prop
  | object {wraps a properties} : WrapsLike wraps (.object a properties)
  | array {wraps a items} : WrapsLike wraps (.array a items)
  | scalar {wraps a type choices} : WrapsLike wraps (.scalar a type choices)
  | union {wraps a alternatives} (own : wraps = true → a.makesList = true)
      (below : ∀ n ∈ alternatives, WrapsLike a.makesList n) : WrapsLike wraps (.union a alternatives)

namespace Resolve

variable {wraps wraps' : Bool} {path : ParamPath} {v : Value}

/-- Whether unions make lists counts for values that are no collections, and the more
unions do the more fits. -/
theorem fits_mono {n : Node} (h : v.isCollection = false → wraps = true → wraps' = true)
    (hfits : fits wraps v n = true) : fits wraps' v n = true := by
  induction n using Node.treeInduction with
  | object | scalar => exact hfits
  | array a items =>
      cases v with
      | null | array | object => exact hfits
      | bool | number | string =>
          simp only [fits, Value.isNull, Bool.false_eq_true, if_false, fitsArray,
            Bool.or_eq_true] at hfits ⊢
          exact hfits.imp_left (h rfl)
  | union a alternatives ih =>
      rw [fits] at hfits ⊢
      split at hfits
      · next hnull => rwa [if_pos hnull]
      · next hnull =>
        rw [if_neg hnull]
        obtain ⟨n, hn, hfits⟩ := fitsAny_iff.mp hfits
        exact fitsAny_iff.mpr ⟨n, hn, ih n hn hfits⟩

/-- A union fails as its alternatives do if one of them fits. -/
theorem fails_shapeFirst {P : ResolveError → Prop} {tried : List String} {alternatives : List Node}
    (some : ∃ n ∈ alternatives, fits wraps v n = true)
    (each : ∀ n ∈ alternatives, fits wraps v n = true →
      Fails P (nodeValue path n { value := wrapFor n v })) :
    Fails P (shapeFirst wraps path v tried alternatives) := by
  induction alternatives with
  | nil => simp at some
  | cons n rest ih =>
      rw [shapeFirst_cons]
      split
      · next hn => exact each n List.mem_cons_self hn
      · next hn =>
        refine ih ?_ fun m hm => each m (List.mem_cons_of_mem _ hm)
        obtain ⟨m, hm, hfits⟩ := some
        rcases List.mem_cons.mp hm with rfl | hm
        · exact absurd hfits hn
        · exact ⟨m, hm, hfits⟩

theorem shapeFirst_none {tried : List String} {alternatives : List Node}
    (h : ∀ n ∈ alternatives, fits wraps v n = false) :
    shapeFirst wraps path v tried alternatives = throw (.noAlternative path v tried) := by
  induction alternatives with
  | nil => rw [shapeFirst]
  | cons n rest ih =>
      rw [shapeFirst_cons, if_neg (by simp [h n List.mem_cons_self])]
      exact ih fun m hm => h m (List.mem_cons_of_mem _ hm)

/-! ## The kinds of alternatives -/

theorem fails_object_of_fits {a : Attributes} {properties : Properties}
    (h : fitsObject properties v = true) :
    Fails (Deeper path) (shape path v (.object a properties)) := by
  cases v with
  | object entries =>
      have declared : ∀ key ∈ entries.map Prod.fst, key ∈ properties.map Prod.fst := by
        simp only [fitsObject, List.all_eq_true, lookup_isSome_iff_mem] at h
        intro key hkey
        obtain ⟨entry, hentry, rfl⟩ := List.mem_map.mp hkey
        exact h entry hentry
      have admitted : supplied properties path (some (.object entries)) = .ok entries :=
        supplied_ok.mpr ⟨rfl, declared⟩
      refine fails_shape ((Fails.bind ?_ fun entries => ?_).bind fun fields => fails_pure _)
      · rw [admitted]
        exact fails_liftExcept fun e he => by cases he
      · exact fails_fill fun p hp => (fails_node p.2).2 none
  | null | bool | number | string | array => cases h

theorem fails_array_of_items {a : Attributes} {items : Node} (vs : List Value) :
    Fails (Deeper path) (shape path (.array vs) (.array a items)) := by
  refine fails_shape ((fails_liftExcept fun e he => by cases he).bind fun elements => ?_)
  exact (fails_eachElement (fun p e => fails_nodeValue (fails_node items).1) 0 elements).bind
    fun _ => fails_pure _

theorem fails_scalar_of_fits {P : ResolveError → Prop} {a : Attributes} {type : Primitive}
    {choices : Option (List Value)} (h : fitsScalar type choices v = true) :
    Fails P (shape path v (.scalar a type choices)) := by
  refine fails_shape (fails_liftExcept fun e he => ?_)
  obtain ⟨w, shaped⟩ := fitsScalar_iff.mp h
  rw [shapeScalar_ok.mpr shaped] at he
  cases he

end Resolve

/-! ## A union that makes lists around one that makes none -/

namespace Schema

/-- The inner union, an integer beside it, and lists made by the outer union alone. -/
def nestedDocument : Value :=
  .object [("properties", .object [
    ("x", .object [
      ("oneOf", .array [
        .object [("oneOf", .array [
          .object [("type", .string "array"), ("items", .object [("type", .string "integer")])]])],
        .object [("type", .string "integer")]]),
      ("x-action", .string "MakeList")])])]

/-- The inner union. -/
def innerUnion : Node := .union {} [.array {} (.plainScalar (.typed .integer))]

/-- The outer union. -/
def outerUnion : Node :=
  .union { actions := [.makeList] } [innerUnion, .plainScalar (.typed .integer)]

/-- The schema of the document. -/
def nestedSchema : Schema where
  title := none
  description := none
  root := .object {} [("x", outerUnion)]
  flags := ⟨[.ofNode outerUnion ["x"] "x"]⟩

theorem nestedSchema_built : nestedSchema.Built := by
  refine ⟨nestedDocument, ?_, ofValue_object_iff.mpr ⟨?_, rfl, ?_, rfl, rfl⟩⟩
  · simp [nestedDocument, Value.WellFormed, Value.WellFormedEntries, Value.WellFormedItems]
  · cbv
  · cbv

/-- The integer that is selected for the inner union and refused there. -/
def three : Value := .number (.integer ⟨3, by decide, by decide⟩)

end Schema

namespace Resolve

variable {wraps : Bool} {path : ParamPath} {v : Value}

/-! ## Selected alternatives -/

/-- How a value that fits an alternative may fail there: at elements or properties
below, in actions and checks, or refused in a nested union that does not make lists
where the one around it does. -/
def SelectedFailure (wraps : Bool) (path : ParamPath) (v : Value) (n : Node) (e : ResolveError) : Prop :=
  e.Deeper path ∨ e.Afterwards path ∨
    v.isCollection = false ∧ ¬n.WrapsLike wraps ∧ ∃ tried, e = .noAlternative path v tried

/-- What a union may report of its alternative, it may report itself. -/
theorem SelectedFailure.union {a : Attributes} {alternatives : List Node} {n : Node}
    (hn : n ∈ alternatives) {e : ResolveError} (h : SelectedFailure a.makesList path v n e) :
    SelectedFailure wraps path v (.union a alternatives) e := by
  rcases h with deeper | after | ⟨scalar, unlike, refused⟩
  · exact .inl deeper
  · exact .inr (.inl after)
  · refine .inr (.inr ⟨scalar, ?_, refused⟩)
    intro alike
    cases alike with
    | union own below => exact unlike (below n hn)

/-- **Selection is sound up to nested unions.** A value that fits an alternative is
refused there itself only if it is a scalar and a union that makes no lists is nested
directly in one that does. -/
theorem shape_selected {n : Node} (present : v.isNull = false) (selected : fits wraps v n = true) :
    Fails (SelectedFailure wraps path v n) (shape path (wrapFor n v) n) := by
  induction n using Node.treeInduction generalizing wraps with
  | object a properties =>
      rw [fits, present, if_neg Bool.false_ne_true] at selected
      exact (fails_object_of_fits selected).imp fun e h => .inl h
  | array a items =>
      -- whatever the value, the array gets a sequence
      obtain ⟨vs, hvs⟩ : ∃ vs, wrapFor (.array a items) v = .array vs := by
        cases v <;> exact ⟨_, rfl⟩
      rw [hvs]
      exact (fails_array_of_items vs).imp fun e h => .inl h
  | union a alternatives ih =>
      rw [fits, present, if_neg Bool.false_ne_true] at selected
      refine fails_shape ?_
      show Fails _ (shapeFirst a.makesList path v _ alternatives)
      by_cases again : ∃ n ∈ alternatives, fits a.makesList v n = true
      · refine fails_shapeFirst again fun n hn hfits => ?_
        have shaped : Fails (SelectedFailure wraps path v (.union a alternatives))
            (shape path (wrapFor n v) n) := (ih n hn hfits).imp fun e h => h.union hn
        exact shaped.bind fun w => (fails_finish _ _ w).imp fun e h => .inr (.inl h)
      · -- an alternative fits by the rule of the union around, and none by its own
        obtain ⟨n, hn, hfits⟩ := fitsAny_iff.mp selected
        have lost : ¬(v.isCollection = false → wraps = true → a.makesList = true) :=
          fun h => again ⟨n, hn, fits_mono h hfits⟩
        obtain ⟨scalar, outer, inner⟩ : v.isCollection = false ∧ wraps = true ∧ a.makesList = false := by
          simpa using lost
        rw [shapeFirst_none fun m hm => Bool.eq_false_iff.mpr fun h => again ⟨m, hm, h⟩]
        refine fails_throw (.inr (.inr ⟨scalar, ?_, _, rfl⟩))
        intro alike
        cases alike with
        | union own below =>
            rw [own outer] at inner
            cases inner
  | scalar a type choices =>
      rw [fits, present, if_neg Bool.false_ne_true] at selected
      exact fails_scalar_of_fits selected

open Schema in
theorem shape_selected_nested :
    three.isNull = false ∧ fits true three innerUnion = true ∧
      SelectedFailure true (.ofKeys ["x"]) three innerUnion
        (.noAlternative (.ofKeys ["x"]) three ["[int]"]) := by
  have selected : fits true three innerUnion = true := by cbv
  have run : (shape (.ofKeys ["x"]) three innerUnion).run (.bare []) =
      .error (.noAlternative (.ofKeys ["x"]) three ["[int]"]) (.bare []) := by cbv
  exact ⟨rfl, selected, shape_selected rfl selected _ _ _ run⟩

open Schema in
/-- Selection is not sound without the exception: the outer union selects the inner one
for an integer and is refused there, although its next alternative takes integers. -/
theorem nested_union_refuses_selected :
    nestedSchema.Built ∧
      nestedSchema.root.descend ["x"] = some outerUnion ∧
      fits outerUnion.attrs.makesList three innerUnion = true ∧
      (shape (.ofKeys ["x"]) three innerUnion).run (.bare []) =
        .error (.noAlternative (.ofKeys ["x"]) three ["[int]"]) (.bare []) ∧
      fits outerUnion.attrs.makesList three (.plainScalar (.typed .integer)) = true ∧
      (nestedSchema.resolve (some (.object [("x", three)])) none).run (.bare []) =
        .error (.noAlternative (.ofKeys ["x"]) three ["[int]"]) (.bare []) :=
  ⟨nestedSchema_built, by cbv, by cbv, by cbv, by cbv, by cbv⟩

end Resolve

end ParamTree
