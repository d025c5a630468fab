import ParamTree.Proofs.Rebuilding
import ParamTree.Proofs.Selection

/-!
# A union of one alternative

Between `items: A` and `items: {oneOf: [A]}` an element is shaped to `A` directly or after
`A` was selected for it. The two agree but for the elements that `A` takes by its own
`MakeList` alone (`Node.WrapsAlone`): a mapping, which a sequence wraps but is not selected
for, and a value that a union selects an alternative for only as it makes lists. Selection
refuses those, and `oneOf_transparent` says that it refuses nothing else.
-/

namespace ParamTree

open FileM Resolve

/-- Does the node take the value by its own `MakeList`, where a union around it would not
select it? -/
def Node.WrapsAlone (v : Value) : Node → Prop
  | .array a _ => a.makesList = true ∧ ∃ entries, v = .object entries
  | .union a alternatives => a.makesList = true ∧ fitsAny false v alternatives = false
  | .object .. | .scalar .. => False

/-- The mapping of a union with one alternative. -/
def oneAlternative (alternative : Value) : Value := .object [("oneOf", .array [alternative])]

/-- The node of such a mapping, which takes the settings from around it. -/
def Node.oneOf (here : Inherited) (n : Node) : Node :=
  .union { helpLevel := here.helpLevel, simpleTag := here.simpleTag } [n]

namespace FileM

variable {ε α β : Type} {P Q : Prop} {x y : FileM ε α} {f g : α → FileM ε β}

/-- Does one run succeed as the other does where a condition holds, and fail elsewhere? -/
def Guarded (P : Prop) (x y : FileM ε α) : Prop :=
  ∀ fs a fs', x.run fs = .ok a fs' ↔ y.run fs = .ok a fs' ∧ P

theorem guarded_refl (x : FileM ε α) : Guarded True x x := fun _ _ _ => (and_iff_left trivial).symm

theorem Guarded.of_iff (h : P ↔ Q) (hx : Guarded P x y) : Guarded Q x y := by
  rwa [← propext h]

theorem Guarded.bind (hx : Guarded P x y) (hf : ∀ a, Guarded Q (f a) (g a)) :
    Guarded (P ∧ Q) (x >>= f) (y >>= g) := by
  intro fs b fs'
  rw [run_bind_ok, run_bind_ok]
  constructor
  · rintro ⟨a, fs₁, h₁, h₂⟩
    obtain ⟨h₁, hp⟩ := (hx fs a fs₁).mp h₁
    obtain ⟨h₂, hq⟩ := (hf a fs₁ b fs').mp h₂
    exact ⟨⟨a, fs₁, h₁, h₂⟩, hp, hq⟩
  · rintro ⟨⟨a, fs₁, h₁, h₂⟩, hp, hq⟩
    exact ⟨a, fs₁, (hx fs a fs₁).mpr ⟨h₁, hp⟩, (hf a fs₁ b fs').mpr ⟨h₂, hq⟩⟩

end FileM

namespace Resolve

variable {path : ParamPath} {v w : Value} {n : Node} {fs fs' : FileSystem}

/-! ## One value -/

/-- A sequence that makes lists takes a scalar and the list of it alike. -/
theorem shape_wrapped {a : Attributes} {items : Node} (makes : a.makesList = true)
    (present : v.isNull = false) (scalar : v.isCollection = false) :
    shape path (.array [v]) (.array a items) = shape path v (.array a items) := by
  have elements : ∀ summary, elementsOf a summary path v = .ok [v] := by
    intro summary
    cases v with
    | bool | number | string => exact if_pos makes
    | null => cases present
    | array | object => cases scalar
  rw [shape_present present, shape_present (v := .array [v]) rfl, shapeGiven, shapeGiven, elements]
  rfl

/-- A value that an alternative is selected for is shaped by it as it is. -/
theorem nodeValue_wrapFor (present : v.isNull = false) (h : fits false v n = true) :
    nodeValue path n { value := wrapFor n v } = nodeValue path n { value := v } := by
  cases n with
  | object | union | scalar => rfl
  | array a items =>
      cases v with
      | null => cases present
      | array => rfl
      | object => cases h
      | bool | number | string =>
          rw [nodeValue, nodeValue]
          exact congrArg (· >>= fun shaped => finish a false path shaped) (shape_wrapped h rfl rfl)

theorem makesList_of_elementsOf {a : Attributes} {summary : String} {vs : List Value}
    (h : elementsOf a summary path v = .ok vs) (other : ∀ us, v ≠ .array us) : a.makesList = true := by
  cases hmakes : a.makesList with
  | true => rfl
  | false =>
      cases v with
      | array us => exact absurd rfl (other us)
      | null => cases h
      | bool | number | string | object =>
          simp only [elementsOf, hmakes] at h
          cases h

/-- A value that an alternative takes without being selected for it is wrapped. -/
theorem wrapsAlone_of_run (present : v.isNull = false) (h : fits false v n = false)
    (run : (shape path v n).run fs = .ok w fs') : n.WrapsAlone v := by
  rw [shape_present present] at run
  cases n with
  | object a properties =>
      obtain ⟨fields, fs₁, hfields, -⟩ := run_bind_ok.mp run
      obtain ⟨entries, hsup, -⟩ := contents_ok.mp hfields
      obtain ⟨rfl, declared⟩ := supplied_ok.mp hsup
      have fitting : fitsObject properties (.object entries) = true :=
        List.all_eq_true.mpr fun entry hentry =>
          lookup_isSome_iff_mem.mpr (declared entry.1 (List.mem_map_of_mem hentry))
      rw [fits, present, fitting] at h
      cases h
  | array a items =>
      obtain ⟨elements, fs₁, helements, -⟩ := run_bind_ok.mp run
      obtain ⟨helements, -⟩ := run_liftExcept_ok.mp helements
      cases v with
      | null => cases present
      | array => cases h
      | object entries => exact ⟨makesList_of_elementsOf helements (by simp), entries, rfl⟩
      | bool | number | string =>
          have makes := makesList_of_elementsOf helements (by simp)
          rw [show a.makesList = false from h] at makes
          cases makes
  | union a alternatives =>
      obtain ⟨before, m, after, rfl, -, hfits, -⟩ := shapeFirst_ok run
      have none : fitsAny false v (before ++ m :: after) = false := by
        rwa [fits, present, if_neg Bool.false_ne_true] at h
      refine ⟨?_, none⟩
      cases hmakes : a.makesList with
      | true => rfl
      | false =>
          rw [hmakes] at hfits
          rw [fitsAny_iff.mpr ⟨m, by simp, hfits⟩] at none
          cases none
  | scalar a type choices =>
      obtain ⟨hshape, -⟩ := run_liftExcept_ok.mp run
      rw [fits, present, fitsScalar_iff.mpr ⟨w, shapeScalar_ok.mp hshape⟩] at h
      cases h

theorem not_wrapsAlone_of_fits (present : v.isNull = false) (h : fits false v n = true) :
    ¬n.WrapsAlone v := by
  intro alone
  cases n with
  | object | scalar => exact alone
  | array a items =>
      obtain ⟨-, entries, rfl⟩ := alone
      cases h
  | union a alternatives =>
      rw [fits, present, alone.2] at h
      cases h

/-- Behind a union of its own a node takes what it takes directly, except what it wraps
alone. -/
theorem nodeValue_oneOf (path : ParamPath) (here : Inherited) (present : v.isNull = false) :
    Guarded (¬n.WrapsAlone v) (nodeValue path (n.oneOf here) { value := v })
      (nodeValue path n { value := v }) := by
  have selected : nodeValue path (n.oneOf here) { value := v } =
      if fits false v n then nodeValue path n { value := wrapFor n v }
      else throw (.noAlternative path v [n.typeSummary]) := by
    have idle : ∀ w, finish (n.oneOf here).attrs false path w = pure w := finish_idle ⟨rfl, rfl⟩ _ _
    have shaped : nodeValue path (n.oneOf here) { value := v } = shape path v (n.oneOf here) := by
      show (shape path v (n.oneOf here) >>= finish (n.oneOf here).attrs false path) = _
      rw [funext idle, bind_pure]
    rw [shaped, shape_present present]
    show shapeFirst false path v [n.typeSummary] [n] = _
    rw [shapeFirst_cons, shapeFirst]
  intro fs w fs'
  rw [selected]
  cases h : fits false v n with
  | true =>
      rw [if_pos rfl, nodeValue_wrapFor present h]
      exact (and_iff_left (not_wrapsAlone_of_fits present h)).symm
  | false =>
      rw [if_neg Bool.false_ne_true]
      refine ⟨fun run => absurd run run_throw_ok, ?_⟩
      rintro ⟨run, alone⟩
      obtain ⟨shaped, fs₁, hshape, -⟩ := run_bind_ok.mp run
      exact absurd (wrapsAlone_of_run present h hshape) alone

/-! ## A sequence of values -/

/-- A condition on each element is a condition on the sequence. -/
theorem guarded_eachElement {f g : ParamPath → Value → Resolution Value} {Q : Value → Prop}
    {vs : List Value} (h : ∀ v ∈ vs, ∀ p, Guarded (Q v) (f p v) (g p v)) (i : Nat) :
    Guarded (∀ v ∈ vs, Q v) (eachElement f path i vs) (eachElement g path i vs) := by
  induction vs generalizing i with
  | nil => exact (guarded_refl _).of_iff (by simp)
  | cons v vs ih =>
      have tail := ih (fun u hu => h u (List.mem_cons_of_mem _ hu)) (i + 1)
      have both := (h v List.mem_cons_self (path.index i)).bind fun w =>
        tail.bind fun ws => guarded_refl (pure (w :: ws))
      exact both.of_iff (by rw [and_true, List.forall_mem_cons])

/-- A sequence in the config resolves to its elements, one by one. -/
theorem property_sequence {flags : Option FlagInput} {here : ParamPath}
    (free : flags.bind (·.get? here.keys) = none) (a : Attributes) (items : Node) (vs : List Value) :
    property flags here (some (.array vs)) (.array a items) =
      eachElement (fun p v => nodeValue p items { value := v }) here 0 vs >>= fun ws =>
        finish a false here (.array ws) := by
  rw [property_entry rfl free, nodeValue_sequence]

/-- Around the elements of a sequence a union of their node refuses what the node wraps
alone, and changes nothing else. -/
theorem property_oneOf {flags : Option FlagInput} {place : ParamPath} (a : Attributes) {vs : List Value}
    (around : Inherited) (free : flags.bind (·.get? place.keys) = none)
    (present : ∀ v ∈ vs, v.isNull = false) :
    Guarded (∀ v ∈ vs, ¬n.WrapsAlone v)
      (property flags place (some (.array vs)) (.array a (n.oneOf around)))
      (property flags place (some (.array vs)) (.array a n)) := by
  rw [property_sequence free, property_sequence free]
  refine ((guarded_eachElement (fun v hv p => ?_) 0).bind fun ws => guarded_refl _).of_iff
    (and_iff_left trivial)
  exact nodeValue_oneOf p around (present v hv)

end Resolve

namespace Schema

variable {path path' : ParamPath} {inherited here : Inherited} {own own' : Entries} {alternative : Value}

/-! ## The documents -/

/-- The mapping of a union with one alternative describes the union with its node. -/
theorem buildNode_oneAlternative {n : Node} (h : buildNode path here alternative = .ok n) :
    buildNode path' here (oneAlternative alternative) = .ok (n.oneOf here) := by
  have alternatives : ∀ p, buildAlternatives p here 0 [alternative] = .ok [n] := by
    intro p
    rw [buildAlternatives, buildNode_placed.1 path here alternative _ n h, buildAlternatives]
    rfl
  have kind : kindOf path' here [("oneOf", .array [alternative])] none = .ok (.union [n], none) := by
    simp only [kindOf, List.lookup, beq_self_eq_true, Option.isSome_none, Bool.false_eq_true, if_false,
      alternatives]
    rfl
  -- every other keyword is missing
  have settled : settings path' here [("oneOf", .array [alternative])] = .ok here := by
    simp [settings, List.lookup]
    rfl
  have attributes : attributesOf path' here [("oneOf", .array [alternative])] =
      .ok { helpLevel := here.helpLevel, simpleTag := here.simpleTag } := by
    simp [attributesOf, actionsOf, checksOf, entriesOf, textOf, aliasesOf, List.lookup]
    rfl
  have choices : choicesOf path' [("oneOf", .array [alternative])] = .ok none := by
    simp [choicesOf, List.lookup]
  rw [oneAlternative, buildNode_object, settled, choices]
  refine except_bind_ok.mpr ⟨here, rfl, except_bind_ok.mpr ⟨none, rfl, ?_⟩⟩
  exact except_bind_ok.mpr ⟨_, kind, except_bind_ok.mpr ⟨_, attributes, rfl⟩⟩

/-- **A union of one alternative is transparent but for what its alternative wraps alone.**
Both documents describe sequences with the same attributes. What the one resolves a sequence
without nulls to, the other does too, unless an element is taken by the alternative's own
`MakeList` alone; then the union refuses it. -/
theorem oneOf_transparent {a : Attributes} {n : Node}
    (direct : own.lookup "items" = some alternative)
    (wrapped : own'.lookup "items" = some (oneAlternative alternative))
    (same : ∀ keyword, keyword ≠ "items" → own'.lookup keyword = own.lookup keyword)
    (h : buildNode path inherited (.object own) = .ok (.array a n)) :
    ∃ u, buildNode path inherited (.object own') = .ok (.array a u) ∧
      ∀ flags (here : ParamPath) vs fs w fs', flags.bind (·.get? here.keys) = none →
        (∀ v ∈ vs, v.isNull = false) →
        ((property flags here (some (.array vs)) (.array a u)).run fs = .ok w fs' ↔
          (property flags here (some (.array vs)) (.array a n)).run fs = .ok w fs' ∧
            ∀ v ∈ vs, ¬n.WrapsAlone v) := by
  have keywords : SameKeywords own own' :=
    ⟨fun keyword _ hi => same keyword hi, by rw [same "properties" (by decide)],
      by rw [direct, wrapped]; rfl⟩
  -- only a sequence has something under `items`, and there the union stands around the node
  obtain ⟨around, kind, kind', a', choices, -, hnode, hbuild, related⟩ :=
    buildNode_related path keywords
      (P := fun here kind kind' => ∀ m, kind = .array m → kind' = .array (m.oneOf here))
      (fun here v vs ns _ hns => ⟨ns, hns, nofun⟩)
      (fun here ps hps => ⟨ps, by rwa [declaredProperties, same "properties" (by decide)], nofun⟩)
      (fun here m hm => by
        rw [declaredItems, direct] at hm
        rw [declaredItems, wrapped]
        exact ⟨m.oneOf here, buildNode_oneAlternative hm, fun _ eq => by cases eq; rfl⟩)
      (fun _ _ _ _ => nofun) (fun _ _ => nofun) h
  obtain ⟨rfl, rfl⟩ : kind = .array n ∧ a' = a := by
    cases kind <;> cases hnode
    exact ⟨rfl, rfl⟩
  obtain rfl := related n rfl
  refine ⟨n.oneOf around, hbuild, ?_⟩
  intro flags place vs fs w fs' free present
  exact property_oneOf a' around free present fs w fs'

/-- The mapping of a sequence. -/
def sequenceOf (items : Value) : Entries := [("type", .string "array"), ("items", items)]

/-- Sequences of anything that make lists. -/
def anyLists : Value := .object [("type", .string "array"), ("x-action", .string "MakeList")]

/-- The node of these sequences. -/
def anyListsNode : Node := .array { actions := [.makeList] } (.plainScalar .any)

/-- A number is wrapped on both ways, an empty mapping on the direct one alone. -/
theorem oneOf_transparent_lists :
    buildNode .root {} (.object (sequenceOf anyLists)) = .ok (.array {} anyListsNode) ∧
      (property none .root (some (.array [.object []])) (.array {} anyListsNode)).run (.bare []) =
        .ok (.array [.array [.object []]]) (.bare []) ∧
      ∃ u, buildNode .root {} (.object (sequenceOf (oneAlternative anyLists))) = .ok (.array {} u) ∧
        (property none .root (some (.array [three])) (.array {} u)).run (.bare []) =
          .ok (.array [.array [three]]) (.bare []) ∧
        ∀ w fs', (property none .root (some (.array [.object []])) (.array {} u)).run (.bare []) ≠
          .ok w fs' := by
  have built : buildNode .root {} (.object (sequenceOf anyLists)) = .ok (.array {} anyListsNode) := by
    cbv
  have number : (property none .root (some (.array [three])) (.array {} anyListsNode)).run (.bare []) =
      .ok (.array [.array [three]]) (.bare []) := by cbv
  have wrapped : (sequenceOf (oneAlternative anyLists)).lookup "items" =
      some (oneAlternative anyLists) := rfl
  obtain ⟨u, hu, alike⟩ := oneOf_transparent rfl wrapped
    (fun keyword hk => by simp [sequenceOf, List.lookup, beq_false_of_ne hk]) built
  refine ⟨built, by cbv, u, hu, ?_, ?_⟩
  · refine (alike none .root [three] _ _ _ rfl (by decide)).mpr ⟨number, ?_⟩
    rintro v hv ⟨-, entries, rfl⟩
    cases hv with
    | tail _ hv => cases hv
  · intro w fs' run
    obtain ⟨-, taken⟩ := (alike none .root [.object []] _ _ _ rfl (by decide)).mp run
    exact taken _ List.mem_cons_self ⟨rfl, [], rfl⟩

/-- A union that makes lists of what its only alternative, a sequence, takes. -/
def listUnion : Value :=
  .object [("oneOf", .array [.object (sequenceOf (.object [("type", .string "integer")]))]),
    ("x-action", .string "MakeList")]

/-- The node of the union. -/
def listUnionNode : Node :=
  .union { actions := [.makeList] } [.array {} (.plainScalar (.typed .integer))]

/-- A document with one sequence. -/
def sequenceDocument (items : Value) : Value :=
  .object [("properties", .object [("x", .object (sequenceOf items))])]

/-- The schema of such a document. -/
def sequenceSchema (items : Node) : Schema where
  title := none
  description := none
  root := .object {} [("x", .array {} items)]
  flags := ⟨[.ofNode (.array {} items) ["x"] "x"]⟩

/-- A union that makes lists takes an integer. As the only alternative of another union it
does not. -/
theorem oneOf_not_transparent :
    ofValue (sequenceDocument listUnion) = .ok (sequenceSchema listUnionNode) ∧
      ofValue (sequenceDocument (oneAlternative listUnion)) =
        .ok (sequenceSchema (listUnionNode.oneOf {})) ∧
      ((sequenceSchema listUnionNode).resolve (some (.object [("x", .array [three])])) none).run
          (.bare []) = .ok (.object [("x", .array [.array [three]])]) (.bare []) ∧
      ((sequenceSchema (listUnionNode.oneOf {})).resolve (some (.object [("x", .array [three])]))
          none).run (.bare []) =
        .error (.noAlternative ((ParamPath.ofKeys ["x"]).index 0) three ["[int]"]) (.bare []) :=
  ⟨by cbv, by cbv, by cbv, by cbv⟩

end Schema

end ParamTree
