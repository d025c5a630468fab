import ParamTree.Proofs.Fitting
import ParamTree.Proofs.Precedence

/-!
# Forgotten values

A flag that takes one value and comes without it gets the raw value `true`. Whether this
is an error is decided where the raw value is shaped, not by the flag table. It is one for
every node that does not take `true` (`Node.TakesTrue`), whatever the config holds
(`Schema.resolve_forgotten`). A scalar without a type and a union with a boolean among its
alternatives do take it, though their flags are said to need a value;
`Schema.untypedSchema` has both.
-/

namespace ParamTree

open FileM Resolve

/-- `n.TakesTrue wraps`: the node takes `true` where the union around it makes lists if
`wraps` says so. A scalar does if its type and its literals allow it, a sequence if it is
wrapped, a union if one of its alternatives does. -/
inductive Node.TakesTrue (wraps : Bool) : Node → Prop
  | scalar {a type choices} (typed : type = .any ∨ type = .typed .boolean)
      (listed : ∀ allowed, choices = some allowed → .bool true ∈ allowed) :
      TakesTrue wraps (.scalar a type choices)
  | array {a items} (wrapped : wraps = true ∨ a.makesList = true) : TakesTrue wraps (.array a items)
  | union {a alternatives n} (hn : n ∈ alternatives) (takes : TakesTrue wraps n) :
      TakesTrue wraps (.union a alternatives)

/-- Nothing but `true` is a literal that `true` stands for. -/
theorem standsFor_true {literal : Value} : standsFor (.bool true) literal = true ↔ literal = .bool true := by
  cases literal <;> simp [standsFor, Value.sameAs]

namespace Resolve

variable {wraps : Bool} {path : ParamPath} {fs fs' : FileSystem}

theorem fitsScalar_true {type : Primitive} {choices : Option (List Value)} :
    fitsScalar type choices (.bool true) = true ↔
      (type = .any ∨ type = .typed .boolean) ∧
        ∀ allowed, choices = some allowed → .bool true ∈ allowed := by
  have typed : type.coerce (.bool true) =
      if type = .any ∨ type = .typed .boolean then some (.bool true) else none := by
    cases type with
    | any => rfl
    | typed t => cases t <;> rfl
  unfold fitsScalar
  rw [typed]
  by_cases h : type = .any ∨ type = .typed .boolean
  · cases choices with
    | none => simp [h]
    | some allowed => simp [h, enumMember, List.find?_isSome, standsFor_true]
  · simp [h]

/-- The nodes that take `true` are those that it fits. -/
theorem fits_true {n : Node} : fits wraps (.bool true) n = true ↔ n.TakesTrue wraps := by
  induction n using Node.treeInduction with
  | object a properties =>
      simp only [fits, Value.isNull, Bool.false_eq_true, if_false, fitsObject, false_iff]
      rintro ⟨⟩
  | array a items =>
      simp only [fits, Value.isNull, Bool.false_eq_true, if_false, fitsArray, Bool.or_eq_true]
      constructor
      · exact .array
      · rintro ⟨⟩
        next wrapped => exact wrapped
  | union a alternatives ih =>
      simp only [fits, Value.isNull, Bool.false_eq_true, if_false, fitsAny_iff]
      constructor
      · rintro ⟨n, hn, hfits⟩
        exact .union hn ((ih n hn).mp hfits)
      · rintro ⟨⟩
        next n takes hn => exact ⟨n, hn, (ih n hn).mpr takes⟩
  | scalar a type choices =>
      simp only [fits, Value.isNull, Bool.false_eq_true, if_false, fitsScalar_true]
      constructor
      · rintro ⟨typed, listed⟩
        exact .scalar typed listed
      · rintro ⟨⟩
        next typed listed => exact ⟨typed, listed⟩

/-- A node that takes one value is shaped from `true` only if it takes it. -/
theorem takesTrue_of_shape {n : Node} (leaf : n.isObject = false) (single : n.isVariadic = false)
    {w : Value} (run : (shape path (.bool true) n).run fs = .ok w fs') :
    n.TakesTrue n.attrs.makesList := by
  rw [shape_present rfl] at run
  cases n with
  | object => cases leaf
  | array => cases single
  | union a alternatives =>
      obtain ⟨before, n, after, rfl, -, hfits, -⟩ := shapeFirst_ok run
      exact .union (by simp) (fits_true.mp hfits)
  | scalar a type choices =>
      obtain ⟨read, hread, htaken⟩ := shapeScalar_ok.mp (run_liftExcept_ok.mp run).1
      obtain ⟨typed, listed⟩ := fitsScalar_true.mp (fitsScalar_iff.mpr ⟨w, read, hread, htaken⟩)
      exact .scalar typed listed

/-- The raw value of a forgotten value is `true`. -/
theorem property_forgotten {leaf : Node} (hl : leaf.isObject = false)
    (single : leaf.isVariadic = false) (valued : leaf.acceptsBareFlag = false) {input : FlagInput}
    {here : ParamPath} (given : input.get? here.keys = some .bare) (entry : Option Value) :
    property (some input) here entry leaf = nodeValue here leaf { value := .bool true, bare := true } := by
  have unwritten : leaf.attrs.presence? = none := by
    rw [Node.acceptsBareFlag, Bool.or_eq_false_iff] at valued
    exact Option.not_isSome_iff_eq_none.mp (by simp [valued.2])
  rw [property_given hl given, rawOfGiven, unwritten, single]
  rfl

end Resolve

namespace Schema

/-- **A forgotten value is an error.** The last tag of a flag has no value, though the flag
takes one and the table does not say that it may come alone. If the node of the flag does
not take `true`, no resolution succeeds, for any config. -/
theorem resolve_forgotten {s : Schema} (built : s.Built) {f : Flag} (hf : f ∈ s.flags.flags)
    (single : f.variadic = false) (valued : f.optionalValue = false) {leaf : Node}
    (hd : s.root.descend f.path = some leaf) (refuses : ¬leaf.TakesTrue leaf.attrs.makesList)
    {tokens : List String} (forgotten : s.flags.lastValues f tokens = some [])
    (config : Option Value) (fs : FileSystem) :
    ∃ e fs', (s.resolve config (some tokens)).run fs = .error e fs' := by
  obtain ⟨other, name, hflag, hne, hother, hl⟩ := built.flag_leaf hf
  obtain rfl : leaf = other := Option.some.inj (hd.symm.trans hother)
  rw [hflag] at single valued
  refine resolve_refused hne hd (fun input hread entry fs₁ w fs₂ hvalue => ?_) config fs
  have given := FlagInput.read_get?_bare built.unambiguous hread hf forgotten
  rw [← ParamPath.keys_ofKeys f.path] at given
  rw [property_forgotten hl single valued given] at hvalue
  obtain ⟨shaped, fs₃, hshape, -⟩ := run_bind_ok.mp hvalue
  exact refuses (takesTrue_of_shape hl single hshape)

/-- An untyped parameter, a union with a boolean, and a text. -/
def untypedDocument : Value :=
  .object [("properties", .object [
    ("note", .object [("default", .string "none")]),
    ("level", .object [("type", .array [.string "boolean", .string "string"]),
      ("default", .string "low")]),
    ("name", .object [("type", .string "string"), ("default", .string "run")])])]

/-- The parameters of the document, in order. -/
def untypedNodes : List (String × Node) := [
  ("note", .scalar { default := some (.string "none") } .any none),
  ("level", .union { default := some (.string "low") }
    [.plainScalar (.typed .boolean), .plainScalar (.typed .string)]),
  ("name", .scalar { default := some (.string "run") } (.typed .string) none)]

/-- The schema of the document. -/
def untypedSchema : Schema where
  title := none
  description := none
  root := .object {} untypedNodes
  flags := ⟨untypedNodes.map fun p => .ofNode p.2 [p.1] p.1⟩

theorem untypedSchema_built : untypedSchema.Built := by
  have candidates : Flag.candidates [] "" untypedSchema.root.properties = untypedSchema.flags.flags := by cbv
  have admitted : FlagTable.ofFlags untypedSchema.flags.flags = .ok untypedSchema.flags := by decide +kernel
  refine ⟨untypedDocument, ?_, ofValue_object_iff.mpr ⟨?_, rfl, ?_, rfl, rfl⟩⟩
  · simp [untypedDocument, Value.WellFormed, Value.WellFormedEntries, Value.WellFormedItems]
  · cbv
  · exact (congrArg FlagTable.ofFlags candidates).trans admitted

/-- The text without its value is an error, though the config has a value for it. -/
theorem resolve_forgotten_name :
    let leaf : Node := .scalar { default := some (.string "run") } (.typed .string) none
    let f : Flag := .ofNode leaf ["name"] "name"
    let config : Value := .object [("name", .string "test")]
    f ∈ untypedSchema.flags.flags ∧ f.variadic = false ∧ f.optionalValue = false ∧
      untypedSchema.root.descend f.path = some leaf ∧ ¬leaf.TakesTrue leaf.attrs.makesList ∧
      untypedSchema.flags.lastValues f ["--name"] = some [] ∧
      ∃ e fs', (untypedSchema.resolve (some config) (some ["--name"])).run (.bare []) = .error e fs' := by
  intro leaf f config
  have declared : f ∈ untypedSchema.flags.flags := by
    simp [f, leaf, untypedSchema, untypedNodes]
  have descends : untypedSchema.root.descend f.path = some leaf := by cbv
  have refuses : ¬leaf.TakesTrue leaf.attrs.makesList := by
    rw [← fits_true]
    decide
  have forgotten : untypedSchema.flags.lastValues f ["--name"] = some [] := by cbv
  exact ⟨declared, rfl, rfl, descends, refuses, forgotten,
    resolve_forgotten untypedSchema_built declared rfl rfl descends refuses forgotten _ _⟩

/-- The untyped parameter and the union take `true` for a forgotten value. -/
theorem forgotten_value_taken :
    untypedSchema.Built ∧
      (∀ f ∈ untypedSchema.flags.flags, f.variadic = false ∧ f.optionalValue = false) ∧
      (∀ name ∈ ["note", "level"], ∃ f ∈ untypedSchema.flags.flags,
        f.path = [name] ∧ untypedSchema.flags.lastValues f ["--note", "--level"] = some []) ∧
      (untypedSchema.resolve none (some ["--note", "--level"])).run (.bare []) =
        .ok (.object [("note", .bool true), ("level", .bool true), ("name", .string "run")])
          (.bare []) :=
  ⟨untypedSchema_built, by decide +kernel, by decide +kernel, by cbv⟩

end Schema

end ParamTree
