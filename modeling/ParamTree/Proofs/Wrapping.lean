import ParamTree.Proofs.Idempotence

/-!
# Unions that make lists

A union whose one action is `MakeList` gives null or a sequence. Given its own output, a
union does not always give it back: the value may have been taken by a scalar and wrapped
afterwards, while the sequence goes to an alternative that takes sequences, with elements
of another type. `union_wrapped` says when it does give it back: exactly if the
alternative that the sequence goes to keeps it. Where the tree is steady this is so if that
alternative has made the sequence. `wrappedSchema` has unions that refuse what they give.
-/

namespace ParamTree

open FileM Resolve

/-- The value as a sequence: itself if it is one, else the sequence of it. -/
def Value.listed : Value → Value
  | .array vs => .array vs
  | other => .array [other]

/-- `MakeList` is the only action. -/
structure Attributes.WrapsOnly (a : Attributes) : Prop where
  present : a.actions ≠ []
  wraps : ∀ action ∈ a.actions, action = .makeList

/-- Are there no actions? -/
def Node.Idle (n : Node) : Prop := n.attrs.actions = []

theorem Action.apply_makeList (v : Value) : Action.makeList.apply v = pure v.listed := by
  cases v <;> rfl

theorem Attributes.WrapsOnly.makesList {a : Attributes} (only : a.WrapsOnly) : a.makesList = true := by
  obtain ⟨action, rest, hactions⟩ := List.exists_cons_of_ne_nil only.present
  have first : action ∈ a.actions := by simp [hactions]
  refine List.any_eq_true.mpr ⟨action, first, ?_⟩
  rw [only.wraps action first]
  rfl

namespace Resolve

variable {path : ParamPath} {fs fs' : FileSystem} {v w : Value}

/-! ## Wrapping -/

/-- Wrapping again changes nothing. -/
theorem applyActions_makeList {actions : List Action} (wraps : ∀ action ∈ actions, action = .makeList)
    (present : actions ≠ []) (bare : Bool) (path : ParamPath) (v : Value) :
    applyActions bare path actions v = pure v.listed := by
  induction actions generalizing v with
  | nil => exact absurd rfl present
  | cons action rest ih =>
      obtain rfl := wraps action List.mem_cons_self
      have step : applyActions bare path (.makeList :: rest) v = applyActions bare path rest v.listed := by
        rw [applyActions, Action.apply_makeList]
        rfl
      rw [step]
      cases rest with
      | nil => rfl
      | cons next more =>
          rw [ih (fun a ha => wraps a (List.mem_cons_of_mem _ ha)) (List.cons_ne_nil _ _)]
          cases v <;> rfl

/-- A union that wraps ends with null, or with a sequence on which its checks pass. -/
theorem finish_wrapping {a : Attributes} (only : a.WrapsOnly) {bare : Bool} {r : Value} :
    (finish a bare path w).run fs = .ok r fs' ↔
      fs' = fs ∧ ((w = .null ∧ r = .null) ∨
        (w.isNull = false ∧ r = w.listed ∧ (runChecks path r a.checks).run fs = .ok () fs)) := by
  cases hnull : w.isNull with
  | true =>
      obtain rfl := Value.isNull_iff.mp hnull
      rw [finish, if_pos hnull, run_pure_ok]
      simp [and_comm]
  | false =>
      have present : w ≠ .null := by
        rintro rfl
        cases hnull
      rw [finish, hnull, if_neg Bool.false_ne_true,
        applyActions_makeList only.wraps only.present, pure_bind,
        (keeps_runChecks path _ _).run_bind_ok]
      simp only [run_pure_ok]
      constructor
      · rintro ⟨_, passed, rfl, rfl⟩
        exact ⟨rfl, .inr ⟨trivial, rfl, passed⟩⟩
      · rintro ⟨rfl, ⟨rfl, -⟩ | ⟨-, rfl, passed⟩⟩
        · exact absurd rfl present
        · exact ⟨(), passed, rfl, rfl⟩

/-- An alternative gets a sequence as it is. -/
theorem wrapFor_array (n : Node) (vs : List Value) : wrapFor n (.array vs) = .array vs := by
  cases n <;> rfl

/-- An alternative gets null from null alone. -/
theorem eq_null_of_wrapFor {n : Node} (h : wrapFor n v = .null) : v = .null := by
  cases n with
  | array => cases v <;> cases h
  | object | union | scalar => exact h

/-! ## Nodes without actions -/

section Idle

variable {n : Node} (idle : n.Every Node.Idle)

include idle

theorem keeps_idle : (∀ path v, Keeps Eq (shape path v n)) ∧
    ∀ path raw, Keeps Eq (nodeValue path n raw) := by
  have still : n.Every fun m => ∀ action ∈ m.attrs.actions, ∀ v, Keeps Eq (action.apply v) := by
    refine idle.imp fun m hm action ha => ?_
    rw [show m.attrs.actions = [] from hm] at ha
    cases ha
  have shapes := (keeps_node RunRelation.eq still).1
  exact ⟨shapes, fun path raw => keeps_nodeValue RunRelation.eq still.self shapes⟩

/-- Without actions a sequence is shaped to a sequence. -/
theorem array_of_shape {vs : List Value} (run : (shape path (.array vs) n).run fs = .ok w fs') :
    ∃ ws, w = .array ws := by
  induction n using Node.treeInduction generalizing fs' with
  | object a properties =>
      rw [shape_present rfl] at run
      obtain ⟨fields, fs₁, hfields, -⟩ := run_bind_ok.mp run
      obtain ⟨entries, hsup, -⟩ := contents_ok.mp hfields
      cases (supplied_ok.mp hsup).1
  | array a items =>
      rw [shape_present rfl] at run
      obtain ⟨elements, fs₁, -, run⟩ := run_bind_ok.mp run
      obtain ⟨ws, fs₂, -, run⟩ := run_bind_ok.mp run
      exact ⟨ws, (run_pure_ok.mp run).1⟩
  | union a alternatives ih =>
      rw [shape_present rfl] at run
      obtain ⟨before, m, after, rfl, -, -, hvalue⟩ := shapeFirst_ok run
      have hmem : m ∈ before ++ m :: after := by simp
      obtain ⟨shaped, fs₁, hshape, hfinish⟩ := run_bind_ok.mp hvalue
      obtain rfl := finish_plain (idle.alternative hmem).self hfinish
      rw [wrapFor_array] at hshape
      exact ih m hmem (idle.alternative hmem) hshape
  | scalar a type choices =>
      rw [shape_present rfl] at run
      obtain ⟨read, hread, htaken⟩ := shapeScalar_ok.mp (run_liftExcept_ok.mp run).1
      obtain rfl : read = .array vs := coerce_of_not_text (by simp) hread
      cases choices with
      | none => exact ⟨vs, (Option.some.inj htaken).symm⟩
      | some allowed =>
          have stands : standsFor (.array vs) w = true := List.find?_some htaken
          cases w with
          | array ws => exact ⟨ws, rfl⟩
          | null | bool | number | string | object => simp [standsFor, Value.sameAs] at stands

theorem array_of_nodeValue {vs : List Value}
    (run : (nodeValue path n { value := .array vs }).run fs = .ok w fs') : ∃ ws, w = .array ws := by
  obtain ⟨shaped, fs₁, hshape, hfinish⟩ := run_bind_ok.mp run
  obtain rfl := finish_plain idle.self hfinish
  exact array_of_shape idle hshape

end Idle

/-- Where null is shaped from null alone by each alternative, it is by the first that fits. -/
theorem null_of_shapeFirst {wraps : Bool} {tried : List String} {alternatives : List Node}
    (plain : ∀ m ∈ alternatives, m.attrs.actions = [])
    (each : ∀ m ∈ alternatives, ∀ v fs', (shape path v m).run fs = .ok .null fs' → v = .null)
    (run : (shapeFirst wraps path v tried alternatives).run fs = .ok .null fs') : v = .null := by
  obtain ⟨before, m, after, rfl, -, -, hvalue⟩ := shapeFirst_ok run
  have hmem : m ∈ before ++ m :: after := by simp
  obtain ⟨shaped, fs₁, hshape, hfinish⟩ := run_bind_ok.mp hvalue
  obtain rfl := finish_plain (plain m hmem) hfinish
  exact eq_null_of_wrapFor (each m hmem _ _ hshape)

/-- In a steady tree null is shaped from null alone. -/
theorem null_of_shape {n : Node} (steady : n.Every Node.Steady)
    (run : (shape path v n).run fs = .ok .null fs') : v = .null := by
  induction n using Node.treeInduction generalizing v fs' with
  | object a properties =>
      rcases shape_run_ok.mp run with ⟨rfl, -⟩ | ⟨-, run⟩
      · rfl
      · obtain ⟨fields, fs₁, -, run⟩ := run_bind_ok.mp run
        cases (run_pure_ok.mp run).1
  | array a items =>
      rcases shape_run_ok.mp run with ⟨rfl, -⟩ | ⟨-, run⟩
      · rfl
      · obtain ⟨elements, fs₁, -, run⟩ := run_bind_ok.mp run
        obtain ⟨ws, fs₂, -, run⟩ := run_bind_ok.mp run
        cases (run_pure_ok.mp run).1
  | union a alternatives ih =>
      rcases shape_run_ok.mp run with ⟨rfl, -⟩ | ⟨-, run⟩
      · rfl
      · refine null_of_shapeFirst (fun m hm => ?_) (fun m hm v fs' => ?_) run
        · exact (steady.alternative hm).self.actions_eq_nil (steady.self.strict hm)
        · exact ih m hm (steady.alternative hm)
  | scalar a type choices =>
      rcases shape_run_ok.mp run with ⟨rfl, -⟩ | ⟨-, run⟩
      · rfl
      · obtain ⟨hcoerce, -⟩ := shapeScalar_steady steady.self (run_liftExcept_ok.mp run).1
        exact (refines_of_coerce hcoerce).eq_of_isNull rfl

/-! ## Elements -/

/-- A sequence stays exactly if each of its elements does. -/
theorem eachElement_kept_iff {f : ParamPath → Value → Resolution Value}
    (still : ∀ p v, Keeps Eq (f p v)) {i : Nat} {vs : List Value} :
    (eachElement f path i vs).run fs = .ok vs fs ↔
      ∀ j w, vs[j]? = some w → (f (path.index (i + j)) w).run fs = .ok w fs := by
  have stillRest : ∀ j us, Keeps Eq (eachElement f path j us) :=
    keeps_eachElement RunRelation.eq still
  induction vs generalizing i with
  | nil =>
      rw [eachElement, run_pure_ok]
      simp
  | cons v vs ih =>
      rw [eachElement, (still _ v).run_bind_ok]
      constructor
      · rintro ⟨u, hu, run⟩ j w hw
        obtain ⟨us, hus, run⟩ := (stillRest _ vs).run_bind_ok.mp run
        obtain ⟨heq, -⟩ := run_pure_ok.mp run
        cases heq
        cases j with
        | zero =>
            cases hw
            exact hu
        | succ j =>
            have rest := ih.mp hus j w hw
            rwa [show i + (j + 1) = i + 1 + j by omega]
      · intro each
        refine ⟨v, each 0 v rfl, (stillRest _ vs).run_bind_ok.mpr ⟨vs, ih.mpr fun j w hw => ?_, rfl⟩⟩
        have at_j := each (j + 1) w hw
        rwa [show i + (j + 1) = i + 1 + j by omega] at at_j

/-- A sequence without actions stays exactly if its elements do and its checks pass. -/
theorem nodeValue_array_kept_iff {b : Attributes} {items : Node} (idle : (Node.array b items).Every Node.Idle)
    {rs : List Value} :
    (nodeValue path (.array b items) { value := .array rs }).run fs = .ok (.array rs) fs ↔
      (∀ i w, rs[i]? = some w →
        (nodeValue (path.index i) items { value := w }).run fs = .ok w fs) ∧
      (runChecks path (.array rs) b.checks).run fs = .ok () fs := by
  have still := fun p e => (keeps_idle idle.items).2 p { value := e }
  rw [nodeValue_sequence, (keeps_eachElement RunRelation.eq still 0 rs).run_bind_ok]
  have ended : ∀ ws, (finish b false path (.array ws)).run fs = .ok (.array rs) fs ↔
      ws = rs ∧ (runChecks path (.array rs) b.checks).run fs = .ok () fs := by
    intro ws
    have plain : b.actions = [] := idle.self
    rw [finish_checked plain, checked, if_neg (by simp [Value.isNull]),
      (keeps_runChecks path _ _).run_bind_ok]
    simp only [run_pure_ok, Value.array.injEq]
    constructor
    · rintro ⟨_, passed, rfl, -⟩
      exact ⟨rfl, passed⟩
    · rintro ⟨rfl, passed⟩
      exact ⟨(), passed, rfl, trivial⟩
  have elements := @eachElement_kept_iff path fs _ still 0 rs
  simp only [Nat.zero_add] at elements
  rw [← elements]
  constructor
  · rintro ⟨ws, hws, hfinish⟩
    obtain ⟨rfl, passed⟩ := (ended ws).mp hfinish
    exact ⟨hws, passed⟩
  · rintro ⟨hrs, passed⟩
    exact ⟨rs, hrs, (ended rs).mpr ⟨rfl, passed⟩⟩

/-! ## Unions -/

/-- A sequence fits the alternative that is a sequence, so there is a first one that it fits. -/
theorem exists_first_fit {alternatives : List Node}
    (sequence : ∃ b items, .array b items ∈ alternatives) (rs : List Value) :
    ∃ before n after, alternatives = before ++ n :: after ∧
      (∀ m ∈ before, fits true (.array rs) m = false) ∧ fits true (.array rs) n = true := by
  obtain ⟨b, items, hsequence⟩ := sequence
  obtain ⟨n, hfirst⟩ : ∃ n, alternatives.find? (fits true (.array rs)) = some n :=
    Option.isSome_iff_exists.mp (List.find?_isSome.mpr ⟨_, hsequence, rfl⟩)
  obtain ⟨taken, before, after, rfl, others⟩ := List.find?_eq_some_iff_append.mp hfirst
  exact ⟨before, n, after, rfl, fun m hm => by simpa using others m hm, taken⟩

section Union

variable {a : Attributes} (only : a.WrapsOnly) {before after : List Node} {n : Node}

include only

/-- A sequence goes to the first alternative that it fits, and stays exactly if that one
keeps it and the union's checks pass. -/
theorem nodeValue_union_kept_iff (idle : n.Every Node.Idle) {rs : List Value}
    (others : ∀ m ∈ before, fits true (.array rs) m = false) (taken : fits true (.array rs) n = true) :
    (nodeValue path (.union a (before ++ n :: after)) { value := .array rs }).run fs = .ok (.array rs) fs ↔
      (nodeValue path n { value := .array rs }).run fs = .ok (.array rs) fs ∧
        (runChecks path (.array rs) a.checks).run fs = .ok () fs := by
  have selected : shape path (.array rs) (.union a (before ++ n :: after)) =
      nodeValue path n { value := .array rs } := by
    rw [shape_present rfl, shapeGiven, only.makesList, shapeFirst_append others taken, wrapFor_array]
  show ((shape path (.array rs) (.union a (before ++ n :: after)) >>= finish a false path).run fs = _) ↔ _
  rw [selected, ((keeps_idle idle).2 path _).run_bind_ok]
  constructor
  · rintro ⟨w, hvalue, hfinish⟩
    obtain ⟨ws, rfl⟩ := array_of_nodeValue idle hvalue
    obtain ⟨-, ⟨hw, -⟩ | ⟨-, hr, passed⟩⟩ := (finish_wrapping only).mp hfinish
    · cases hw
    · cases hr
      exact ⟨hvalue, passed⟩
  · rintro ⟨hvalue, passed⟩
    exact ⟨_, hvalue, (finish_wrapping only).mpr ⟨rfl, .inr ⟨rfl, rfl, passed⟩⟩⟩

end Union

end Resolve

/-- **When a union that makes lists accepts its own output.** It gives null or a sequence
and makes nothing. A sequence goes to the first alternative that it fits, and comes back
exactly if that alternative keeps it, which a sequence of items does if the items keep each
element and its checks pass. Where the alternatives are steady, null comes back, and a
sequence comes back if the alternative that it goes to has made it. -/
theorem union_wrapped {s : Schema} (built : s.Built) {names : List String} {a : Attributes}
    {alternatives : List Node} (hd : s.root.descend names = some (.union a alternatives))
    (only : a.WrapsOnly) (sequence : ∃ b items, .array b items ∈ alternatives)
    (idle : ∀ n ∈ alternatives, n.Every Node.Idle) {v r : Value} {fs fs' : FileSystem}
    (run : (property (some {}) (.ofKeys names) (some v) (.union a alternatives)).run fs = .ok r fs') :
    let again := (property (some {}) (.ofKeys names) (some r) (.union a alternatives)).run fs = .ok r fs
    fs' = fs ∧ (r = .null ∨ ∃ rs, r = .array rs) ∧
      (∀ rs, r = .array rs → ∃ before n after, alternatives = before ++ n :: after ∧
        (∀ m ∈ before, fits true r m = false) ∧ fits true r n = true ∧
        (again ↔ (nodeValue (.ofKeys names) n { value := r }).run fs = .ok r fs) ∧
        (∀ b items, n = .array b items → (again ↔
          (∀ i w, rs[i]? = some w →
            (nodeValue ((ParamPath.ofKeys names).index i) items { value := w }).run fs = .ok w fs) ∧
          (runChecks (.ofKeys names) r b.checks).run fs = .ok () fs)) ∧
        ((∀ m ∈ alternatives, m.Every Node.Steady) →
          (nodeValue (.ofKeys names) n { value := wrapFor n v }).run fs = .ok r fs → again)) ∧
      ((∀ m ∈ alternatives, m.Every Node.Steady) → r = .null → again) := by
  intro again
  have entry : ∀ u, property (some {}) (.ofKeys names) (some u) (.union a alternatives) =
      nodeValue (.ofKeys names) (.union a alternatives) { value := u } := fun u =>
    property_entry rfl rfl u
  have still : Keeps Eq (shape (.ofKeys names) v (.union a alternatives)) :=
    keeps_shape RunRelation.eq (keeps_shapeFirst fun n hn raw => (keeps_idle (idle n hn)).2 _ raw)
  have first := run
  rw [entry] at first
  obtain ⟨w, hshape, hfinish⟩ := still.run_bind_ok.mp first
  obtain ⟨rfl, hend⟩ := (finish_wrapping only).mp hfinish
  refine ⟨rfl, ?_, ?_, ?_⟩
  · rcases hend with ⟨-, rfl⟩ | ⟨-, rfl, -⟩
    · exact .inl rfl
    · cases w <;> exact .inr ⟨_, rfl⟩
  · rintro rs rfl
    have passed : (runChecks (.ofKeys names) (.array rs) a.checks).run fs' = .ok () fs' := by
      rcases hend with ⟨-, hr⟩ | ⟨-, -, passed⟩
      · cases hr
      · exact passed
    obtain ⟨before, n, after, rfl, others, taken⟩ := exists_first_fit sequence rs
    have hmem : n ∈ before ++ n :: after := by simp
    have kept : again ↔ (nodeValue (.ofKeys names) n { value := .array rs }).run fs' =
        .ok (.array rs) fs' := by
      show (property _ _ _ _).run fs' = _ ↔ _
      rw [entry, nodeValue_union_kept_iff only (idle n hmem) others taken]
      exact and_iff_left passed
    refine ⟨before, n, after, rfl, others, taken, kept, ?_, fun steady made => kept.mpr ?_⟩
    · rintro b items rfl
      rw [kept]
      exact nodeValue_array_kept_iff (idle _ hmem)
    · have distinct := (built.distinct.descend hd).alternative hmem
      exact nodeValue_again (steady n hmem) (node_again (steady n hmem) distinct).1 made
  · rintro steady rfl
    obtain rfl : w = .null := by
      rcases hend with ⟨hw, -⟩ | ⟨-, hr, -⟩
      · exact hw
      · cases w <;> cases hr
    -- nothing but null is shaped to null, so this is the first run again
    obtain rfl : v = .null := by
      rcases shape_run_ok.mp hshape with ⟨hv, -⟩ | ⟨-, given⟩
      · exact hv
      · exact null_of_shapeFirst (fun m hm => (idle m hm).self)
          (fun m hm v fs' => null_of_shape (steady m hm)) given
    exact run

namespace Schema

/-- Four unions that make lists. A boolean and integers; texts limited to a number; a
sequence of sequences, one of which has null as its default; and a literal null. -/
def wrappedDocument : Value :=
  .object [("properties", .object [
    ("sizes", .object [("type", .array [.string "boolean", .string "array"]),
      ("items", .object [("type", .string "integer")]),
      ("x-action", .string "MakeList"), ("default", .array [])]),
    ("codes", .object [("type", .array [.string "boolean", .string "array"]),
      ("items", .object [("type", .string "string"),
        ("enum", .array [.number (.integer ⟨16, by decide, by decide⟩)])]),
      ("x-action", .string "MakeList"), ("default", .array [])]),
    ("rows", .object [("type", .array [.string "boolean", .string "array"]),
      ("items", .object [("oneOf", .array [
        .object [("type", .string "array"), ("items", .object [("type", .string "integer")])],
        .object [("type", .string "array"), ("default", .null),
          ("items", .object [("default", .null)])]])]),
      ("x-action", .string "MakeList"), ("default", .array [])]),
    ("mark", .object [
      ("oneOf", .array [.object [("enum", .array [.null])],
        .object [("type", .string "array"), ("items", .object [("type", .string "string")])]]),
      ("x-action", .string "MakeList"), ("default", .array [])])])]

/-- What the unions carry. -/
def wrappedAttributes : Attributes := { default := some (.array []), actions := [.makeList] }

/-- The sequences among the alternatives, by name. -/
def wrappedSequences : List (String × Node) := [
  ("sizes", .array {} (.plainScalar (.typed .integer))),
  ("codes", .array {} (.scalar {} (.typed .string)
    (some [.number (.integer ⟨16, by decide, by decide⟩)]))),
  ("rows", .array {} (.union {} [.array {} (.plainScalar (.typed .integer)),
    .array { default := some .null } (.scalar { default := some .null } .any none)])),
  ("mark", .array {} (.plainScalar (.typed .string)))]

/-- The alternative before the sequence. -/
def wrappedFirst : String → Node
  | "mark" => .scalar {} .any (some [.null])
  | _ => .plainScalar (.typed .boolean)

/-- The unions, by name. -/
def wrappedNodes : List (String × Node) :=
  wrappedSequences.map fun p => (p.1, .union wrappedAttributes [wrappedFirst p.1, p.2])

/-- The schema of the document. -/
def wrappedSchema : Schema where
  title := none
  description := none
  root := .object {} wrappedNodes
  flags := ⟨wrappedNodes.map fun p => .ofNode p.2 [p.1] p.1⟩

theorem wrappedSchema_built : wrappedSchema.Built := by
  have candidates : Flag.candidates [] "" wrappedSchema.root.properties = wrappedSchema.flags.flags := by cbv
  have admitted : FlagTable.ofFlags wrappedSchema.flags.flags = .ok wrappedSchema.flags := by decide +kernel
  refine ⟨wrappedDocument, ?_, ofValue_object_iff.mpr ⟨?_, rfl, ?_, rfl, rfl⟩⟩
  · simp [wrappedDocument, Value.WellFormed, Value.WellFormedEntries, Value.WellFormedItems]
  · cbv
  · exact (congrArg FlagTable.ofFlags candidates).trans admitted

/-- The union of a boolean and integers. -/
def sizesNode : Node :=
  .union wrappedAttributes [.plainScalar (.typed .boolean), .array {} (.plainScalar (.typed .integer))]

/-- An integer of the sequence. -/
def oneSize : Value := .number (.integer ⟨6, by decide, by decide⟩)

/-- An integer becomes a sequence in the alternative that takes sequences, and comes back. -/
theorem union_wrapped_sizes :
    wrappedSchema.root.descend ["sizes"] = some sizesNode ∧ wrappedAttributes.WrapsOnly ∧
      (property (some {}) (.ofKeys ["sizes"]) (some oneSize) sizesNode).run (.bare []) =
        .ok (.array [oneSize]) (.bare []) ∧
      (property (some {}) (.ofKeys ["sizes"]) (some (.array [oneSize])) sizesNode).run (.bare []) =
        .ok (.array [oneSize]) (.bare []) := by
  have descends : wrappedSchema.root.descend ["sizes"] = some sizesNode := by cbv
  have only : wrappedAttributes.WrapsOnly := ⟨by simp [wrappedAttributes], by simp [wrappedAttributes]⟩
  have idle : ∀ n ∈ [Node.plainScalar (.typed .boolean), .array {} (.plainScalar (.typed .integer))],
      n.Every Node.Idle := by
    simp [Node.plainScalar, Node.Idle, Node.attrs]
  have steady : ∀ n ∈ [Node.plainScalar (.typed .boolean), .array {} (.plainScalar (.typed .integer))],
      n.Every Node.Steady := by
    simp [Node.plainScalar, Node.Steady, Node.attrs]
  have run : (property (some {}) (.ofKeys ["sizes"]) (some oneSize) sizesNode).run (.bare []) =
      .ok (.array [oneSize]) (.bare []) := by cbv
  obtain ⟨-, -, kept, -⟩ :=
    union_wrapped wrappedSchema_built descends only ⟨{}, .plainScalar (.typed .integer), by simp⟩ idle run
  obtain ⟨before, n, after, heq, -, taken, -, -, made⟩ := kept _ rfl
  refine ⟨descends, only, run, made steady ?_⟩
  -- the boolean does not fit the sequence, so it goes to the integers
  obtain rfl : n = .array {} (.plainScalar (.typed .integer)) := by
    have hmem : n ∈ before ++ n :: after := by simp
    rw [← heq] at hmem
    rcases List.mem_cons.mp hmem with rfl | hmem
    · exact absurd taken (by decide)
    · exact List.mem_singleton.mp hmem
  cbv

/-- Every union of the sample makes lists and does nothing else, has one sequence among its
alternatives, and has no actions below it. Each refuses what it has given. -/
theorem wrapped_output_refused :
    wrappedSchema.Built ∧
      (∀ p ∈ wrappedNodes, ∃ alternatives, p.2 = .union wrappedAttributes alternatives ∧
        alternatives.countP Node.isArray = 1 ∧ ∀ n ∈ alternatives, n.Every Node.Idle) ∧
      wrappedAttributes.actions = [.makeList] ∧
      (wrappedSchema.resolve (some (.object [("sizes", .bool true), ("codes", .array [.string "16"]),
          ("rows", .array [.null]), ("mark", .string "null")])) none).run (.bare []) =
        .ok (.object [("sizes", .array [.bool true]),
          ("codes", .array [.number (.integer ⟨16, by decide, by decide⟩)]),
          ("rows", .array [.array [.null]]), ("mark", .null)]) (.bare []) ∧
      (wrappedSchema.resolve (some (.object [("sizes", .array [.bool true])])) none).run (.bare []) =
        .error (.typeMismatch ((ParamPath.ofKeys ["sizes"]).index 0) "integer" (.bool true)) (.bare []) ∧
      (wrappedSchema.resolve (some (.object [
          ("codes", .array [.number (.integer ⟨16, by decide, by decide⟩)])])) none).run (.bare []) =
        .error (.typeMismatch ((ParamPath.ofKeys ["codes"]).index 0) "string"
          (.number (.integer ⟨16, by decide, by decide⟩))) (.bare []) ∧
      (wrappedSchema.resolve (some (.object [("rows", .array [.array [.null]])])) none).run (.bare []) =
        .error (.typeMismatch (((ParamPath.ofKeys ["rows"]).index 0).index 0) "integer" .null)
          (.bare []) ∧
      (wrappedSchema.resolve (some (.object [("mark", .null)])) none).run (.bare []) =
        .error (.noAlternative (.ofKeys ["mark"]) .null ["any", "[str]"]) (.bare []) := by
  refine ⟨wrappedSchema_built, ?_, rfl, by cbv, by cbv, by cbv, by cbv, by cbv⟩
  simp [wrappedNodes, wrappedSequences, wrappedFirst, Node.plainScalar, Node.Idle, Node.attrs,
    Node.isArray]

end Schema

end ParamTree
