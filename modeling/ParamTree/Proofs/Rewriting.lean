import ParamTree.Proofs.Rebuilding

/-!
# Rewriting a document

A rule changes one mapping of a document. `Rewritten rule` changes any number of them, one
after another and at any depth, wherever a node is described: under `properties`, under
`items`, among the alternatives of a `oneOf`. The rule is told whether the mapping is such an
alternative.

Parts of a document that give related nodes give related nodes when put together
(`builds_parts`). So what one use of the rule does to the node of its mapping is done to the
nodes of the document by any number of uses (`Rewritten.builds`).
-/

namespace ParamTree

/-! ## Parts in relation -/

/-- One key, with values in relation. -/
inductive SameKey {α : Type} (R : α → α → Prop) : String × α → String × α → Prop
  | mk (key : String) {v v' : α} : R v v' → SameKey R (key, v) (key, v')

theorem SameKey.flip {α : Type} {R : α → α → Prop} {p q : String × α} (h : SameKey R p q) :
    SameKey (flip R) q p := by
  cases h with
  | mk key h => exact .mk key h

theorem sameKeys_eq {α : Type} {R : α → α → Prop} {ps ps' : List (String × α)}
    (h : List.Forall₂ (SameKey R) ps ps') : ps'.map Prod.fst = ps.map Prod.fst := by
  induction h with
  | nil => rfl
  | cons head _ ih =>
      cases head
      rw [List.map_cons, List.map_cons, ih]

/-- Two entries of a mapping that differ at most in the nodes under them. Under `oneOf` these
are in relation `A`, elsewhere in relation `R`. -/
inductive SamePart (R A : Value → Value → Prop) : String × Value → String × Value → Prop
  | same (entry) : SamePart R A entry entry
  | properties {ps ps'} (below : List.Forall₂ (SameKey R) ps ps') :
      SamePart R A ("properties", .object ps) ("properties", .object ps')
  | items {v v'} (below : R v v') : SamePart R A ("items", v) ("items", v')
  | oneOf {vs vs'} (below : List.Forall₂ A vs vs') :
      SamePart R A ("oneOf", .array vs) ("oneOf", .array vs')

/-- Two mappings that differ at most in the nodes under them. -/
abbrev SameParts (R A : Value → Value → Prop) : Entries → Entries → Prop :=
  List.Forall₂ (SamePart R A)

/-- Two nodes that differ at most in the nodes below them. The alternatives of a union are in
relation `A`, other nodes in relation `R`. -/
inductive NodeParts (R A : Node → Node → Prop) : Node → Node → Prop
  | object {a ps ps'} (below : List.Forall₂ (SameKey R) ps ps') :
      NodeParts R A (.object a ps) (.object a ps')
  | array {a n n'} (below : R n n') : NodeParts R A (.array a n) (.array a n')
  | union {a ns ns'} (below : List.Forall₂ A ns ns') : NodeParts R A (.union a ns) (.union a ns')
  | scalar {a type choices} : NodeParts R A (.scalar a type choices) (.scalar a type choices)

theorem NodeParts.eq {n n' : Node} (h : NodeParts Eq Eq n n') : n = n' := by
  cases h with
  | object below =>
      refine congrArg _ ?_
      induction below with
      | nil => rfl
      | cons head _ ih =>
          cases head with
          | mk key h => rw [h, ih]
  | array below => rw [below]
  | union below =>
      rw [List.forall₂_eq_eq_eq] at below
      rw [below]
  | scalar => rfl

namespace SamePart

variable {R A : Value → Value → Prop} {p q : String × Value}

theorem key (h : SamePart R A p q) : q.1 = p.1 := by
  cases h <;> rfl

theorem flip (h : SamePart R A p q) : SamePart (flip R) (flip A) q p := by
  cases h with
  | same => exact .same p
  | properties below => exact .properties (List.Forall₂.flip (below.imp fun _ _ => SameKey.flip))
  | items below => exact .items below
  | oneOf below => exact .oneOf (List.Forall₂.flip below)

theorem of_properties {v v' : Value} (h : SamePart R A ("properties", v) ("properties", v')) :
    v' = v ∨ ∃ ps ps', v = .object ps ∧ v' = .object ps' ∧ List.Forall₂ (SameKey R) ps ps' := by
  generalize hk : "properties" = keyword at h
  cases h with
  | same => exact .inl rfl
  | properties below => exact .inr ⟨_, _, rfl, rfl, below⟩
  | items | oneOf => exact absurd hk (by decide)

theorem of_items {v v' : Value} (h : SamePart R A ("items", v) ("items", v')) : v' = v ∨ R v v' := by
  generalize hk : "items" = keyword at h
  cases h with
  | same => exact .inl rfl
  | items below => exact .inr below
  | properties | oneOf => exact absurd hk (by decide)

theorem of_oneOf {v v' : Value} (h : SamePart R A ("oneOf", v) ("oneOf", v')) :
    v' = v ∨ ∃ vs vs', v = .array vs ∧ v' = .array vs' ∧ List.Forall₂ A vs vs' := by
  generalize hk : "oneOf" = keyword at h
  cases h with
  | same => exact .inl rfl
  | oneOf below => exact .inr ⟨_, _, rfl, rfl, below⟩
  | properties | items => exact absurd hk (by decide)

end SamePart

namespace SameParts

variable {R A : Value → Value → Prop} {own own' : Entries}

theorem flip (h : SameParts R A own own') : SameParts (flip R) (flip A) own' own :=
  List.Forall₂.flip (h.imp fun _ _ => SamePart.flip)

theorem lookup (h : SameParts R A own own') (keyword : String) :
    Option.Rel (fun v v' => SamePart R A (keyword, v) (keyword, v')) (own.lookup keyword)
      (own'.lookup keyword) := by
  induction h with
  | nil => exact .none
  | @cons p q rest rest' head _ ih =>
      obtain ⟨k, v⟩ := p
      obtain ⟨k', v'⟩ := q
      obtain rfl : k' = k := head.key
      rw [List.lookup_cons, List.lookup_cons]
      by_cases hk : keyword = k'
      · subst hk
        rw [beq_self_eq_true]
        exact .some head
      · rw [beq_false_of_ne hk]
        exact ih

theorem isSome (h : SameParts R A own own') (keyword : String) :
    (own'.lookup keyword).isSome = (own.lookup keyword).isSome := by
  have both := h.lookup keyword
  generalize own.lookup keyword = v at both ⊢
  generalize own'.lookup keyword = v' at both ⊢
  cases both <;> rfl

theorem sameButParts (h : SameParts R A own own') : Schema.SameButParts own own' where
  other keyword hp hi ho := by
    have both := h.lookup keyword
    generalize own.lookup keyword = v at both ⊢
    generalize own'.lookup keyword = v' at both ⊢
    cases both with
    | none => rfl
    | some part =>
        cases part with
        | same => rfl
        | properties => exact absurd rfl hp
        | items => exact absurd rfl hi
        | oneOf => exact absurd rfl ho
  properties := h.isSome "properties"
  items := h.isSome "items"
  oneOf := h.isSome "oneOf"

end SameParts

namespace Schema

/-! ## Building the parts -/

/-- Does the builder make of the second value a node in relation to that of the first,
wherever they stand? -/
def Builds (N : Node → Node → Prop) (v v' : Value) : Prop :=
  ∀ path path' inherited n, buildNode path inherited v = .ok n →
    ∃ n', buildNode path' inherited v' = .ok n' ∧ N n n'

variable {R A N : Node → Node → Prop} {path path' : ParamPath} {inherited : Inherited}
  {own own' : Entries}

theorem builds_refl (refl : ∀ n, N n n) (v : Value) : Builds N v v :=
  fun path path' inherited n h => ⟨n, buildNode_placed.1 path inherited v path' n h, refl n⟩

theorem Builds.trans {u v w : Value} (trans : ∀ k m n, N k m → N m n → N k n)
    (h : Builds N u v) (h' : Builds N v w) : Builds N u w := by
  intro path path' inherited k hk
  obtain ⟨m, hm, hkm⟩ := h path path inherited k hk
  obtain ⟨n, hn, hmn⟩ := h' path path' inherited m hm
  exact ⟨n, hn, trans k m n hkm hmn⟩

theorem builds_properties {ps ps' : Entries} (h : List.Forall₂ (SameKey (Builds R)) ps ps')
    {nodes : Properties} (hb : buildProperties path inherited ps = .ok nodes) :
    ∃ nodes', buildProperties path' inherited ps' = .ok nodes' ∧
      List.Forall₂ (SameKey R) nodes nodes' := by
  induction h generalizing nodes with
  | nil =>
      rw [buildProperties] at hb ⊢
      cases hb
      exact ⟨[], rfl, .nil⟩
  | cons head _ ih =>
      cases head with
      | mk key head =>
          rw [buildProperties] at hb ⊢
          obtain ⟨node, hnode, hb⟩ := except_bind_ok.mp hb
          obtain ⟨rest, hrest, hb⟩ := except_bind_ok.mp hb
          obtain rfl := except_pure_ok.mp hb
          obtain ⟨node', hnode', related⟩ := head _ (path'.key key) _ _ hnode
          obtain ⟨rest', hrest', below⟩ := ih hrest
          exact ⟨(key, node') :: rest', by rw [hnode', hrest']; rfl, .cons (.mk key related) below⟩

theorem builds_alternatives {vs vs' : List Value} (h : List.Forall₂ (Builds A) vs vs') {i : Nat}
    {nodes : List Node} (hb : buildAlternatives path inherited i vs = .ok nodes) :
    ∃ nodes', buildAlternatives path' inherited i vs' = .ok nodes' ∧ List.Forall₂ A nodes nodes' := by
  induction h generalizing i nodes with
  | nil =>
      rw [buildAlternatives] at hb ⊢
      cases hb
      exact ⟨[], rfl, .nil⟩
  | cons head _ ih =>
      rw [buildAlternatives] at hb ⊢
      obtain ⟨node, hnode, hb⟩ := except_bind_ok.mp hb
      obtain ⟨rest, hrest, hb⟩ := except_bind_ok.mp hb
      obtain rfl := except_pure_ok.mp hb
      obtain ⟨node', hnode', related⟩ := head _ (path'.index i) _ _ hnode
      obtain ⟨rest', hrest', below⟩ := ih hrest
      exact ⟨node' :: rest', by rw [hnode', hrest']; rfl, .cons related below⟩

section Parts

variable (parts : SameParts (Builds R) (Builds A) own own') (reflR : ∀ n, R n n)
  (reflA : ∀ n, A n n)

include parts reflR

theorem builds_declaredProperties {ps : Properties}
    (h : declaredProperties path inherited own = .ok ps) :
    ∃ ps', declaredProperties path' inherited own' = .ok ps' ∧ List.Forall₂ (SameKey R) ps ps' := by
  have both := parts.lookup "properties"
  unfold declaredProperties at h ⊢
  generalize own.lookup "properties" = v at both h
  generalize own'.lookup "properties" = v' at both ⊢
  cases both with
  | none =>
      cases h
      exact ⟨[], rfl, .nil⟩
  | some part =>
      rcases part.of_properties with rfl | ⟨ps, ps', rfl, rfl, below⟩
      · split at h
        · next hv => cases hv
        · next declared hv =>
          cases hv
          refine builds_properties (List.forall₂_same.mpr fun p _ => ?_) h
          exact .mk p.1 (builds_refl reflR p.2)
        · cases h
      · exact builds_properties below h

theorem builds_declaredItems {n : Node} (h : declaredItems path inherited own = .ok n) :
    ∃ n', declaredItems path' inherited own' = .ok n' ∧ R n n' := by
  have both := parts.lookup "items"
  unfold declaredItems at h ⊢
  generalize own.lookup "items" = v at both h
  generalize own'.lookup "items" = v' at both ⊢
  cases both with
  | none => exact ⟨n, h, reflR n⟩
  | some part =>
      rcases part.of_items with rfl | below
      · exact builds_refl reflR _ _ _ _ n h
      · exact below _ _ _ n h

omit reflR
include reflA

theorem builds_oneOf {v : Value} {vs : List Value} {ns : List Node}
    (hone : own.lookup "oneOf" = some (.array (v :: vs)))
    (h : buildAlternatives path inherited 0 (v :: vs) = .ok ns) :
    ∃ v' vs' ns', own'.lookup "oneOf" = some (.array (v' :: vs')) ∧
      buildAlternatives path' inherited 0 (v' :: vs') = .ok ns' ∧ List.Forall₂ A ns ns' := by
  have both := parts.lookup "oneOf"
  rw [hone] at both
  generalize own'.lookup "oneOf" = found at both ⊢
  cases both with
  | @some _ w part =>
      obtain ⟨us, rfl, below⟩ : ∃ us, w = .array us ∧ List.Forall₂ (Builds A) (v :: vs) us := by
        rcases part.of_oneOf with rfl | ⟨_, us, ⟨⟩, rfl, below⟩
        · exact ⟨v :: vs, rfl, List.forall₂_same.mpr fun u _ => builds_refl reflA u⟩
        · exact ⟨us, rfl, below⟩
      obtain ⟨ns', hns', related⟩ := builds_alternatives below h
      cases below with
      | @cons _ v' _ vs' => exact ⟨v', vs', ns', rfl, hns', related⟩

end Parts

/-- **Related parts are put together to related nodes.** A list of type names gives a union
of nodes that share what stands below them, so these have to be related in turn. -/
theorem builds_parts (reflR : ∀ n, R n n) (reflA : ∀ n, A n n)
    (names : ∀ n n', NodeParts R A n n' → A n n')
    (parts : SameParts (Builds R) (Builds A) own own') :
    Builds (NodeParts R A) (.object own) (.object own') := by
  intro path path' inherited n h
  obtain ⟨here, kind, kind', a, choices, -, rfl, hbuild, related⟩ :=
    buildNode_parts path' parts.sameButParts
      (P := fun _ kind kind' => ∀ a choices,
        NodeParts R A (kind.toNode a choices) (kind'.toNode a choices))
      (fun here v vs ns hone hns => by
        obtain ⟨v', vs', ns', hone', hns', below⟩ := builds_oneOf parts reflA hone hns
        exact ⟨v', vs', ns', hone', hns', fun a _ => .union below⟩)
      (fun here ps hps => by
        obtain ⟨ps', hps', below⟩ := builds_declaredProperties parts reflR hps
        exact ⟨ps', hps', fun a _ => .object below⟩)
      (fun here n hn => by
        obtain ⟨n', hn', below⟩ := builds_declaredItems parts reflR hn
        exact ⟨n', hn', fun a _ => .array below⟩)
      (fun _ here ns ns' hns a _ => .union (hns.imp fun n n' hn => by
        obtain ⟨kind, kind', b, choices, rfl, rfl, related⟩ := hn
        exact names _ _ (related b choices)))
      (fun here type a choices => .scalar) h
  exact ⟨kind'.toNode a choices, hbuild, related a choices⟩

end Schema

/-! ## Rules -/

/-- `Rewritten rule listed v w`: the rule changes `v` to `w` in any number of mappings that
describe nodes. `listed` says whether `v` is itself an alternative of a `oneOf`. -/
inductive Rewritten (rule : Bool → Entries → Entries → Prop) : Bool → Value → Value → Prop
  | refl (listed v) : Rewritten rule listed v v
  | trans {listed u v w} (first : Rewritten rule listed u v) (second : Rewritten rule listed v w) :
      Rewritten rule listed u w
  | here {listed own own'} (step : rule listed own own') :
      Rewritten rule listed (.object own) (.object own')
  | within {listed own own'}
      (parts : List.Forall₂ (SamePart (Rewritten rule false) (Rewritten rule true)) own own') :
      Rewritten rule listed (.object own) (.object own')

namespace Rewritten

variable {rule : Bool → Entries → Entries → Prop} {listed : Bool} {v w : Value}

/-- Induction over the uses of a rule: what holds of one use, and of a mapping as soon as it
holds of its parts, holds of all uses. -/
theorem induction {motive : Bool → Value → Value → Prop} (refl : ∀ listed v, motive listed v v)
    (trans : ∀ listed u v w, motive listed u v → motive listed v w → motive listed u w)
    (here : ∀ listed own own', rule listed own own' → motive listed (.object own) (.object own'))
    (within : ∀ listed own own', SameParts (motive false) (motive true) own own' →
      motive listed (.object own) (.object own')) (h : Rewritten rule listed v w) :
    motive listed v w := by
  -- the relation nests itself in entries, in properties and in lists of both
  refine Rewritten.rec (motive_1 := fun listed v w _ => motive listed v w)
    (motive_2 := fun own own' _ => SameParts (motive false) (motive true) own own')
    (motive_3 := fun p q _ => SamePart (motive false) (motive true) p q)
    (motive_4 := fun ps ps' _ => List.Forall₂ (SameKey (motive false)) ps ps')
    (motive_5 := fun vs vs' _ => List.Forall₂ (motive true) vs vs')
    (motive_6 := fun p q _ => SameKey (motive false) p q)
    refl (fun _ _ => trans _ _ _ _) (here _ _ _) (fun _ => within _ _ _) .nil
    (fun _ _ => .cons) .same (fun _ => .properties) (fun _ => .items) (fun _ => .oneOf) .nil
    (fun _ _ => .cons) .nil (fun _ _ => .cons) (fun key _ _ _ => .mk key) h

/-- The rule read backwards undoes what the rule does. -/
theorem flip (h : Rewritten rule listed v w) :
    Rewritten (fun listed own own' => rule listed own' own) listed w v := by
  refine h.induction (motive := fun listed v w =>
    Rewritten (fun listed own own' => rule listed own' own) listed w v) .refl ?_ ?_ ?_
  · intro listed u v w first second
    exact .trans second first
  · intro listed own own' step
    exact .here step
  · intro listed own own' parts
    exact .within parts.flip

/-- **What one use of a rule does to a node, all uses do**, if the relation of the nodes
holds of nodes put together from related ones. -/
theorem builds {N : Bool → Node → Node → Prop} (refl : ∀ listed n, N listed n n)
    (trans : ∀ listed k m n, N listed k m → N listed m n → N listed k n)
    (parts : ∀ listed n n', NodeParts (N false) (N true) n n' → N listed n n')
    (step : ∀ listed own own', rule listed own own' →
      Schema.Builds (N listed) (.object own) (.object own'))
    (h : Rewritten rule listed v w) : Schema.Builds (N listed) v w := by
  refine h.induction (motive := fun listed v w => Schema.Builds (N listed) v w)
    (fun listed => Schema.builds_refl (refl listed)) ?_ step ?_
  · intro listed u v w first second
    exact first.trans (trans listed) second
  · intro listed own own' related path path' inherited n h
    obtain ⟨n', hn', below⟩ :=
      Schema.builds_parts (refl false) (refl true) (parts true) related path path' inherited n h
    exact ⟨n', hn', parts listed n n' below⟩

end Rewritten

end ParamTree
