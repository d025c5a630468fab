import ParamTree.Proofs.Rewriting
import ParamTree.Proofs.Selection
import ParamTree.Proofs.Survival

/-!
# Growing unions

A union takes the first alternative that a value fits, so further alternatives at its end
change no choice that was made before. `resolve_grown` says so of a whole document in which
any number of unions grow: what a config resolved to it still resolves to. A union that is
itself an alternative may not grow, as the union around it would be chosen to hold values that
it passed on before.

`Node.Covers` is what such a growth does to a node. Its one field about fitting is what the
restriction is for.
-/

namespace ParamTree

open FileM Resolve

/-! ## The documents -/

/-- The mapping with further alternatives at the end of its list, if it has one. -/
def appendAlternatives (more : List Value) (own : Entries) : Entries :=
  match own.lookup "oneOf" with
  | some (.array (v :: vs)) => own.put "oneOf" (.array (v :: vs ++ more))
  | _ => own

/-- A mapping grows unless it is listed as an alternative itself. -/
def Grows (listed : Bool) (own own' : Entries) : Prop :=
  listed = false ∧ ∃ more, own' = appendAlternatives more own

namespace Resolve

/-- A union resolves to one of its alternatives what it did without those at its end. -/
theorem survives_append {wraps : Bool} {path : ParamPath} {v : Value} {tried tried' : List String}
    (ns more : List Node) :
    Survives Eq (shapeFirst wraps path v tried ns) (shapeFirst wraps path v tried' (ns ++ more)) := by
  induction ns with
  | nil => exact survives_throw _ _
  | cons n rest ih =>
      rw [List.cons_append, shapeFirst_cons, shapeFirst_cons]
      split
      · exact survives_rfl _
      · exact ih

end Resolve

/-! ## The nodes -/

/-- `n'.Covers listed n`: whatever `n` resolves `n'` resolves alike. If the node is listed as
an alternative, both fit the same values. -/
structure Node.Covers (listed : Bool) (n' n : Node) : Prop where
  attrs : n'.attrs = n.attrs
  isObject : n'.isObject = n.isObject
  wrapFor : ∀ v, wrapFor n' v = wrapFor n v
  fits : listed = true → ∀ wraps v, fits wraps v n' = fits wraps v n
  shape : ∀ path v, Survives Eq (shape path v n) (shape path v n')
  contents : ∀ flags, Silent flags → ∀ path given,
    Survives Eq (contents flags path n.properties given) (contents flags path n'.properties given)

namespace Node.Covers

variable {listed : Bool} {k m n n' : Node} {flags : Option FlagInput} {path : ParamPath}

theorem refl (listed : Bool) (n : Node) : n.Covers listed n where
  attrs := rfl
  isObject := rfl
  wrapFor _ := rfl
  fits _ _ _ := rfl
  shape _ _ := survives_rfl _
  contents _ _ _ _ := survives_rfl _

theorem trans (h : k.Covers listed m) (h' : m.Covers listed n) : k.Covers listed n where
  attrs := h.attrs.trans h'.attrs
  isObject := h.isObject.trans h'.isObject
  wrapFor v := (h.wrapFor v).trans (h'.wrapFor v)
  fits hl wraps v := (h.fits hl wraps v).trans (h'.fits hl wraps v)
  shape path v := (h'.shape path v).trans (h.shape path v)
  contents flags silent path given :=
    (h'.contents flags silent path given).trans (h.contents flags silent path given)

theorem nodeValue (h : n'.Covers listed n) (path : ParamPath) (raw : Raw) :
    Survives Eq (nodeValue path n raw) (nodeValue path n' raw) := by
  refine (h.shape path raw.value).bind_eq fun shaped => ?_
  rw [h.attrs]
  exact survives_rfl _

/-- No flag reaches either node, so both take the same raw value. -/
theorem property (h : n'.Covers listed n) (silent : Silent flags) (here : ParamPath)
    (config : Option Value) :
    Survives Eq (property flags here config n) (property flags here config n') := by
  have attrs := h.attrs
  have isObject := h.isObject
  rcases n.leaf_or_object with hleaf | ⟨a, ps, rfl⟩
  · have picked : pick flags n' config here = pick flags n config here := by
      unfold pick
      rw [silent, attrs]
    rw [property_leaf hleaf, property_leaf (isObject.trans hleaf), picked]
    exact (survives_rfl _).bind_eq fun raw => h.nodeValue here raw
  · rcases n'.leaf_or_object with hleaf | ⟨a', ps', rfl⟩
    · rw [hleaf] at isObject
      cases isObject
    · obtain rfl : a' = a := attrs
      exact (h.contents flags silent here _).bind_eq fun _ => survives_rfl _

theorem survives_shape (attrs : n'.attrs = n.attrs)
    (given : ∀ path v, Survives Eq (shapeGiven path v n) (shapeGiven path v n')) (path : ParamPath)
    (v : Value) : Survives Eq (Resolve.shape path v n) (Resolve.shape path v n') := by
  rw [shape_eq, shape_eq, attrs]
  split
  · exact survives_rfl _
  · exact given path v

/-! ### From the nodes below -/

section Object

variable {a : Attributes} {ps ps' : Properties}
  (below : List.Forall₂ (SameKey (Node.Covers false)) ps' ps)

include below

theorem lookup_isSome (key : String) : (ps'.lookup key).isSome = (ps.lookup key).isSome := by
  rw [Bool.eq_iff_iff, lookup_isSome_iff_mem, lookup_isSome_iff_mem, sameKeys_eq below]

theorem survives_contents (silent : Silent flags) (path : ParamPath) (given : Option Value) :
    Survives Eq (Resolve.contents flags path ps given) (Resolve.contents flags path ps' given) := by
  have declared : supplied ps' path given = supplied ps path given := by
    unfold supplied
    simp only [← Option.not_isSome, lookup_isSome below]
  rw [Resolve.contents, Resolve.contents, declared]
  refine (survives_rfl _).bind_eq fun entries => ?_
  clear declared
  induction below with
  | nil => exact survives_rfl _
  | cons head _ ih =>
      cases head with
      | mk key head =>
          rw [fill_cons, fill_cons]
          refine (head.property silent _ _).bind_eq fun value => ?_
          exact ih.bind_eq fun values => survives_rfl _

theorem object : (Node.object a ps').Covers listed (.object a ps) where
  attrs := rfl
  isObject := rfl
  wrapFor _ := rfl
  fits _ wraps v := by
    rw [Resolve.fits, Resolve.fits]
    cases v <;> simp only [fitsObject, lookup_isSome below]
  shape := survives_shape rfl fun path v =>
    (survives_contents below (fun _ => rfl) path (some v)).bind_eq fun _ =>
      survives_rfl _
  contents flags silent := survives_contents below silent

end Object

/-- A leaf has nothing below it that is filled. -/
theorem ofLeaf (hn : n.isObject = false) (hn' : n'.isObject = false) (attrs : n'.attrs = n.attrs)
    (wrapFor : ∀ v, Resolve.wrapFor n' v = Resolve.wrapFor n v)
    (fits : listed = true → ∀ wraps v, Resolve.fits wraps v n' = Resolve.fits wraps v n)
    (given : ∀ path v, Survives Eq (shapeGiven path v n) (shapeGiven path v n')) :
    n'.Covers listed n where
  attrs := attrs
  isObject := hn'.trans hn.symm
  wrapFor := wrapFor
  fits := fits
  shape := survives_shape attrs given
  contents flags _ path given := by
    have same : n'.properties = n.properties := by
      rw [properties_of_leaf hn', properties_of_leaf hn]
    rw [same]
    exact survives_rfl _

theorem array {a : Attributes} (below : n'.Covers false n) :
    (Node.array a n').Covers listed (.array a n) := by
  refine ofLeaf rfl rfl rfl (fun v => by cases v <;> rfl) (fun _ _ _ => rfl) fun path v => ?_
  have elements : ∀ vs, elementsOf a ("[" ++ n.typeSummary ++ "]") path v = .ok vs →
      ∃ ws, elementsOf a ("[" ++ n'.typeSummary ++ "]") path v = .ok ws ∧ vs = ws := by
    intro vs h
    refine ⟨vs, ?_, rfl⟩
    unfold elementsOf at h ⊢
    split at h
    · exact h
    · cases h
    · split at h
      · next makes => exact (if_pos makes).trans h
      · cases h
  refine (survives_liftExcept elements).bind_eq fun vs => ?_
  exact (survives_eachElement (fun p e => below.nodeValue p { value := e }) path 0 vs).bind_eq
    fun ws => survives_rfl _

theorem union {a : Attributes} {ns ns' : List Node} (below : List.Forall₂ (Node.Covers true) ns' ns) :
    (Node.union a ns').Covers listed (.union a ns) := by
  have fit : ∀ wraps v, fitsAny wraps v ns' = fitsAny wraps v ns := by
    intro wraps v
    induction below with
    | nil => rfl
    | cons head _ ih => rw [fitsAny, fitsAny, head.fits rfl, ih]
  refine ofLeaf rfl rfl rfl (fun _ => rfl) (fun _ wraps v => ?_) fun path v => ?_
  · rw [Resolve.fits, Resolve.fits, fit]
  · rw [shapeGiven, shapeGiven]
    -- the two messages differ, and so only the alternatives are walked
    generalize ns.map Node.typeSummary = tried, ns'.map Node.typeSummary = tried'
    clear fit
    induction below with
    | nil => exact survives_throw _ _
    | cons head _ ih =>
        rw [shapeFirst_cons, shapeFirst_cons, head.fits rfl, head.wrapFor]
        split
        · exact head.nodeValue path _
        · exact ih

theorem ofParts (h : NodeParts (Node.Covers false) (Node.Covers true) n' n) : n'.Covers listed n := by
  cases h with
  | object below => exact object below
  | array below => exact array below
  | union below => exact union below
  | scalar => exact refl listed _

/-- A union covers itself with fewer alternatives at the end. -/
theorem append (a : Attributes) (ns more : List Node) :
    (Node.union a (ns ++ more)).Covers false (.union a ns) :=
  ofLeaf rfl rfl rfl (fun _ => rfl) nofun fun _ _ => survives_append ns more

end Node.Covers

namespace Schema

variable {path path' : ParamPath} {inherited : Inherited} {own : Entries} {s s' : Schema}

/-! ## Building and resolving -/

theorem buildAlternatives_append (vs : List Value) {more : List Value} {i : Nat} {ns : List Node}
    (h : buildAlternatives path inherited i (vs ++ more) = .ok ns) :
    ∃ first rest, buildAlternatives path inherited i vs = .ok first ∧ ns = first ++ rest := by
  induction vs generalizing i ns with
  | nil => exact ⟨[], ns, by rw [buildAlternatives], rfl⟩
  | cons v vs ih =>
      rw [List.cons_append, buildAlternatives] at h
      obtain ⟨n, hn, h⟩ := except_bind_ok.mp h
      obtain ⟨ns', hns', h⟩ := except_bind_ok.mp h
      obtain rfl := except_pure_ok.mp h
      obtain ⟨first, rest, hfirst, rfl⟩ := ih hns'
      exact ⟨n :: first, rest, by rw [buildAlternatives, hn, hfirst]; rfl, rfl⟩

/-- The node of the longer list covers that of the shorter one. -/
theorem builds_appended (more : List Value) (own : Entries) :
    Builds (Node.Covers false) (.object (appendAlternatives more own)) (.object own) := by
  unfold appendAlternatives
  split
  · next v vs hone =>
    intro path path' inherited n h
    have others : ∀ keyword, keyword ≠ "oneOf" → own.lookup keyword =
        (own.put "oneOf" (.array (v :: vs ++ more))).lookup keyword := by
      intro keyword hk
      rw [Entries.lookup_put, if_neg hk]
    have longer : (own.put "oneOf" (.array (v :: vs ++ more))).lookup "oneOf" =
        some (.array (v :: (vs ++ more))) := by rw [Entries.lookup_put, if_pos rfl, List.cons_append]
    have same : SameButParts (own.put "oneOf" (.array (v :: vs ++ more))) own :=
      ⟨fun keyword _ _ ho => others keyword ho, by rw [others _ (by decide)],
        by rw [others _ (by decide)], by rw [longer, hone]; rfl⟩
    obtain ⟨here, kind, kind', a, choices, -, rfl, hbuild, covers⟩ :=
      buildNode_parts path' same
        (P := fun _ kind kind' => ∀ a choices,
          (kind.toNode a choices).Covers false (kind'.toNode a choices))
        (fun here u us ns hone' hns => by
          obtain ⟨rfl, rfl⟩ : v = u ∧ vs ++ more = us := by
            rw [longer] at hone'
            cases hone'
            exact ⟨rfl, rfl⟩
          obtain ⟨first, rest, hfirst, rfl⟩ := buildAlternatives_append (v :: vs) hns
          refine ⟨v, vs, first, hone, buildNode_placed.2.2 _ _ _ _ _ _ _ hfirst, ?_⟩
          exact fun a _ => .append a first rest)
        (fun here ps hps => ⟨ps, declaredProperties_placed (others _ (by decide)) hps,
          fun _ _ => .refl false _⟩)
        (fun here n hn => ⟨n, declaredItems_placed (others _ (by decide)) hn, fun _ _ => .refl false _⟩)
        (fun absent => by rw [longer] at absent; cases absent)
        (fun here type a choices => .refl false _) h
    exact ⟨kind'.toNode a choices, hbuild, covers a choices⟩
  · exact builds_refl (.refl false) _

theorem builds_grown {v v' : Value} (grown : Rewritten Grows false v v') :
    Builds (Node.Covers false) v' v := by
  refine grown.flip.builds .refl (fun _ _ _ _ => .trans) (fun _ _ _ => .ofParts) ?_
  rintro listed own own' ⟨rfl, more, rfl⟩
  exact builds_appended more own'

/-- **Growing unions take nothing away.** Where further alternatives are appended to unions
anywhere in a document, none of them an alternative of another union, every config that
resolved before resolves to the same value and leaves the same files. -/
theorem resolve_grown {document document' : Value} (grown : Rewritten Grows false document document')
    (old : ofValue document = .ok s) (new : ofValue document' = .ok s') {config : Option Value}
    {v : Value} {fs fs' : FileSystem} (run : (s.resolve config none).run fs = .ok v fs') :
    (s'.resolve config none).run fs = .ok v fs' := by
  obtain ⟨hold, -⟩ := ofValue_ok old
  obtain ⟨hnew, -⟩ := ofValue_ok new
  obtain ⟨root, hroot, covers⟩ := builds_grown grown .root .root {} _ hnew
  obtain rfl : root = s.root := by
    rw [hold] at hroot
    cases hroot
    rfl
  have reads : ∀ t : Schema, t.resolve config none = t.resolveInput config {} := fun _ => rfl
  rw [reads, resolveInput_eq] at run ⊢
  have walk : Survives Eq (Resolve.contents (some {}) .root s.root.properties config)
      (Resolve.contents (some {}) .root s'.root.properties config) :=
    covers.contents _ (fun _ => rfl) .root config
  obtain ⟨w, hrun, rfl⟩ := walk.bind_eq (fun fields => survives_rfl _) fs v fs' run
  rw [covers.attrs]
  exact hrun

/-- The mapping of a union. -/
def unionOf (alternatives : List Value) : Value := .object [("oneOf", .array alternatives)]

/-- The mapping of an object with one property. -/
def objectWith (key : String) (node : Value) : Value := .object [("properties", .object [(key, node)])]

/-- A document with a union in a union, with further alternatives for either. -/
def nestedUnions (inner outer : List Value) : Value :=
  objectWith "x" (unionOf
    (objectWith "y" (unionOf (.object [("type", .string "integer")] :: inner)) :: outer))

/-- The node of the outer union. -/
def nestedUnionsNode (inner outer : List Node) : Node :=
  .union {} (.object {} [("y", .union {} (.plainScalar (.typed .integer) :: inner))] :: outer)

/-- The schema of the document. -/
def nestedUnionsSchema (inner outer : List Node) : Schema where
  title := none
  description := none
  root := .object {} [("x", nestedUnionsNode inner outer)]
  flags := ⟨[.ofNode (nestedUnionsNode inner outer) ["x"] "x"]⟩

/-- Both unions take a string at last. What resolved by their first alternatives still does. -/
theorem resolve_grown_nested :
    let text := .object [("type", .string "string")]
    let textNode := .plainScalar (.typed .string)
    let config := .object [("x", .object [("y", three)])]
    Rewritten Grows false (nestedUnions [] []) (nestedUnions [text] [text]) ∧
      ofValue (nestedUnions [] []) = .ok (nestedUnionsSchema [] []) ∧
      ofValue (nestedUnions [text] [text]) = .ok (nestedUnionsSchema [textNode] [textNode]) ∧
      ((nestedUnionsSchema [] []).resolve (some config) none).run (.bare []) =
        .ok config (.bare []) ∧
      ((nestedUnionsSchema [textNode] [textNode]).resolve (some config) none).run (.bare []) =
        .ok config (.bare []) := by
  intro text textNode config
  have old : ofValue (nestedUnions [] []) = .ok (nestedUnionsSchema [] []) := by cbv
  have new : ofValue (nestedUnions [text] [text]) =
      .ok (nestedUnionsSchema [textNode] [textNode]) := by cbv
  have run : ((nestedUnionsSchema [] []).resolve (some config) none).run (.bare []) =
      .ok config (.bare []) := by cbv
  have longer : ∀ v, Rewritten Grows false (unionOf [v]) (unionOf [v, text]) :=
    fun v => .here ⟨rfl, [text], rfl⟩
  have below : ∀ listed key v v', Rewritten Grows false v v' →
      Rewritten Grows listed (objectWith key v) (objectWith key v') :=
    fun listed key v v' h => .within (.cons (.properties (.cons (.mk key h) .nil)) .nil)
  -- the union inside grows first, then the one around it
  have inner : ∀ v v', Rewritten Grows true v v' → Rewritten Grows false (unionOf [v]) (unionOf [v']) :=
    fun v v' h => .within (.cons (.oneOf (.cons h .nil)) .nil)
  have grown : Rewritten Grows false (nestedUnions [] []) (nestedUnions [text] [text]) :=
    below _ _ _ _ (.trans (inner _ _ (below _ _ _ _ (longer _))) (longer _))
  exact ⟨grown, old, new, run, resolve_grown grown old new run⟩

end Schema

end ParamTree
