import ParamTree.Proofs.Fitting
import ParamTree.Proofs.Flags

/-!
# Null in a union

Null fits an alternative exactly if it is the alternative's default, and it goes to the
first of these. Any kind of node gives it back untouched, and so does the union: no
action and no check is run. Except that an array among the alternatives never gets null.
A union puts what it hands to an array into a sequence, so the array gets a sequence of
null and takes null for an element (`union_null`). In `Schema.nullableSchema` the array
then refuses it.
-/

namespace ParamTree

open FileM

namespace Resolve

variable {n : Node} {a : Attributes} {before after : List Node}

theorem finish_null (a : Attributes) (bare : Bool) (path : ParamPath) :
    finish a bare path .null = pure .null := rfl

/-- Null stays where it is the default, before actions and checks. -/
theorem nodeValue_null (h : n.attrs.admitsNull = true) (path : ParamPath) (bare : Bool) :
    nodeValue path n { value := .null, bare } = pure .null := by
  rw [nodeValue, shape_eq, if_pos (by simp [Value.isNull, h]), pure_bind, finish_null]

/-- A union hands null to the first alternative whose default it is. -/
theorem shapeFirst_null (others : ∀ m ∈ before, m.attrs.admitsNull = false)
    (accepts : n.attrs.admitsNull = true) (wraps : Bool) (path : ParamPath) (tried : List String) :
    shapeFirst wraps path .null tried (before ++ n :: after) =
      nodeValue path n { value := wrapFor n .null } :=
  shapeFirst_append (fun m hm => fits_null.trans (others m hm)) (fits_null.trans accepts) after

/-- An alternative other than an array gets null itself, an array a sequence of it. -/
theorem wrapFor_null (n : Node) :
    wrapFor n .null = if n.isArray then .array [.null] else .null := by
  cases n <;> rfl

/-- **Null stays null unless an array accepts it.** The first alternative whose default
is null decides: if it is no array, null is the result wherever it came from, and nothing
is run; an array is resolved from a sequence of null, and the union's own actions and
checks follow. -/
theorem union_null (own : a.admitsNull = false)
    (others : ∀ m ∈ before, m.attrs.admitsNull = false) (accepts : n.attrs.admitsNull = true) :
    (n.isArray = false →
      (∀ path bare, nodeValue path (.union a (before ++ n :: after)) { value := .null, bare } =
        pure .null) ∧
      ∀ flags here, flags.bind (·.get? here.keys) = none →
        property flags here (some .null) (.union a (before ++ n :: after)) = pure .null) ∧
    (n.isArray = true →
      ∀ path bare, nodeValue path (.union a (before ++ n :: after)) { value := .null, bare } =
        nodeValue path n { value := .array [.null] } >>= finish a bare path) := by
  have handed : ∀ path bare,
      nodeValue path (.union a (before ++ n :: after)) { value := .null, bare } =
        nodeValue path n { value := wrapFor n .null } >>= finish a bare path := by
    intro path bare
    rw [nodeValue, shape_eq, if_neg (by simp [Node.attrs, own]), shapeGiven,
      shapeFirst_null others accepts]
    rfl
  constructor
  · intro kind
    have stays : ∀ path bare,
        nodeValue path (.union a (before ++ n :: after)) { value := .null, bare } = pure .null := by
      intro path bare
      rw [handed, wrapFor_null, kind, if_neg Bool.false_ne_true, nodeValue_null accepts, pure_bind,
        finish_null]
    refine ⟨stays, fun flags here unflagged => ?_⟩
    rw [property_entry rfl unflagged]
    exact stays here false
  · intro kind path bare
    rw [handed, wrapFor_null, kind, if_pos rfl]

/-- A text that may be null and has to name a file otherwise. -/
def nullableText : Node :=
  .scalar { default := some .null, checks := [.fileExists] } (.typed .string) none

/-- The text stands behind an alternative that does not take null, in a union that makes
lists. -/
theorem union_null_text :
    nullableText.attrs.admitsNull = true ∧
      ∀ path bare,
        nodeValue path (.union { actions := [.makeList], checks := [.pathExists] }
          [.plainScalar .any, nullableText]) { value := .null, bare } = pure .null := by
  have others : ∀ m ∈ [Node.plainScalar .any], m.attrs.admitsNull = false := by simp; rfl
  have accepts : nullableText.attrs.admitsNull = true := rfl
  refine ⟨accepts, fun path bare => ?_⟩
  exact ((union_null rfl others accepts).1 rfl).1 path bare

end Resolve

/-! ## An array that accepts null -/

namespace Schema

/-- A sequence of integers that may be null. -/
def nullableArray : Node := .array { default := some .null } (.plainScalar (.typed .integer))

/-- A union of the sequence and an integer. -/
def nullableUnion : Node := .union {} [nullableArray, .plainScalar (.typed .integer)]

/-- The union as the one parameter of a document. -/
def nullableDocument : Value :=
  .object [("properties", .object [
    ("x", .object [
      ("oneOf", .array [
        .object [("type", .string "array"), ("items", .object [("type", .string "integer")]),
          ("default", .null)],
        .object [("type", .string "integer")]])])])]

/-- The schema of the document. -/
def nullableSchema : Schema where
  title := none
  description := none
  root := .object {} [("x", nullableUnion)]
  flags := ⟨[.ofNode nullableUnion ["x"] "x"]⟩

theorem nullableSchema_built : nullableSchema.Built := by
  refine ⟨nullableDocument, ?_, ofValue_object_iff.mpr ⟨?_, rfl, ?_, rfl, rfl⟩⟩
  · simp [nullableDocument, Value.WellFormed, Value.WellFormedEntries, Value.WellFormedItems]
  · cbv
  · cbv

/-- Null does not stay null where an array accepts it: the array takes it for an element
and refuses it. -/
theorem nullable_array_refuses_null :
    nullableSchema.Built ∧
      nullableSchema.root.descend ["x"] = some nullableUnion ∧
      nullableUnion.attrs.admitsNull = false ∧ nullableArray.attrs.admitsNull = true ∧
      (nullableSchema.resolve (some (.object [("x", .null)])) none).run (.bare []) =
        .error (.typeMismatch ((ParamPath.ofKeys ["x"]).index 0) "integer" .null) (.bare []) :=
  ⟨nullableSchema_built, by cbv, rfl, rfl, by cbv⟩

end Schema

end ParamTree
