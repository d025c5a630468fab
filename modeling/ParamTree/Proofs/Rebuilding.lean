import Mathlib.Data.List.Forall2
import ParamTree.Proofs.Inheritance

/-!
# Building a changed document

The builder reads the keywords of a mapping one by one; the place of the mapping counts
for its errors alone. So two mappings that agree on every keyword but those that hold
further nodes (`SameButParts`) are built alike, wherever they stand, but for these nodes:
`buildNode_parts` says how the one node follows from the other, and `buildNode_related` does
so for mappings that list the same alternatives. With one mapping for both this is
`buildNode_placed`: a document describes one node at every place.
-/

namespace ParamTree

/-- Where one function succeeds on the members of a list as another does, so it does on the
list. -/
theorem mapM_ok_related {ε α β : Type} {f g : α → Except ε β} {Q : β → β → Prop} {xs : List α}
    {ys : List β} (h : ∀ x ∈ xs, ∀ y, f x = .ok y → ∃ z, g x = .ok z ∧ Q y z)
    (hf : xs.mapM f = .ok ys) : ∃ zs, xs.mapM g = .ok zs ∧ List.Forall₂ Q ys zs := by
  induction xs generalizing ys with
  | nil =>
      rw [List.mapM_nil, except_pure_ok] at hf
      subst hf
      exact ⟨[], rfl, .nil⟩
  | cons x xs ih =>
      rw [List.mapM_cons] at hf
      obtain ⟨y, hy, hf⟩ := except_bind_ok.mp hf
      obtain ⟨ys, hys, hf⟩ := except_bind_ok.mp hf
      obtain rfl := except_pure_ok.mp hf
      obtain ⟨z, hz, hyz⟩ := h x List.mem_cons_self y hy
      obtain ⟨zs, hzs, hrest⟩ := ih (fun u hu => h u (List.mem_cons_of_mem _ hu)) hys
      refine ⟨z :: zs, ?_, .cons hyz hrest⟩
      rw [List.mapM_cons, hz, hzs]
      rfl

theorem mapM_ok_of_imp {ε α β : Type} {f g : α → Except ε β} {xs : List α} {ys : List β}
    (h : ∀ x ∈ xs, ∀ y, f x = .ok y → g x = .ok y) (hf : xs.mapM f = .ok ys) : xs.mapM g = .ok ys := by
  obtain ⟨zs, hzs, same⟩ := mapM_ok_related (fun x hx y hy => ⟨y, h x hx y hy, rfl⟩) hf
  rw [List.forall₂_eq_eq_eq] at same
  rw [hzs, same]

namespace Schema

/-- The keywords that decide the shape of a node. -/
def shapeKeywords : List String := ["type", "enum", "properties", "items", "oneOf"]

/-- Do two mappings agree on every keyword but those of the shape? -/
def SameAttributes (own own' : Entries) : Prop :=
  ∀ keyword, keyword ∉ shapeKeywords → own'.lookup keyword = own.lookup keyword

/-- Do two mappings differ at most in the nodes that stand in them? -/
structure SameButParts (own own' : Entries) : Prop where
  other : ∀ keyword, keyword ≠ "properties" → keyword ≠ "items" → keyword ≠ "oneOf" →
    own'.lookup keyword = own.lookup keyword
  properties : (own'.lookup "properties").isSome = (own.lookup "properties").isSome
  items : (own'.lookup "items").isSome = (own.lookup "items").isSome
  oneOf : (own'.lookup "oneOf").isSome = (own.lookup "oneOf").isSome

/-- Do two mappings differ at most in what stands under `properties` and `items`? -/
structure SameKeywords (own own' : Entries) : Prop where
  other : ∀ keyword, keyword ≠ "properties" → keyword ≠ "items" →
    own'.lookup keyword = own.lookup keyword
  properties : (own'.lookup "properties").isSome = (own.lookup "properties").isSome
  items : (own'.lookup "items").isSome = (own.lookup "items").isSome

theorem SameKeywords.refl (own : Entries) : SameKeywords own own := ⟨fun _ _ _ => rfl, rfl, rfl⟩

theorem SameKeywords.parts {own own' : Entries} (same : SameKeywords own own') :
    SameButParts own own' where
  other keyword hp hi _ := same.other keyword hp hi
  properties := same.properties
  items := same.items
  oneOf := by rw [same.other "oneOf" (by decide) (by decide)]

theorem SameButParts.attributes {own own' : Entries} (same : SameButParts own own') :
    SameAttributes own own' := by
  intro keyword hshape
  simp only [shapeKeywords, List.mem_cons, List.not_mem_nil, or_false, not_or] at hshape
  exact same.other keyword hshape.2.2.1 hshape.2.2.2.1 hshape.2.2.2.2

variable {path path' : ParamPath} {inherited here : Inherited} {own own' : Entries}
  {choices : Option (List Value)} {properties properties' : Except SchemaError Properties}
  {items items' : Except SchemaError Node}

/-! ## Single keywords -/

theorem entriesOf_placed {raw : Option Value} {entries : List (String × Arguments)}
    (h : entriesOf path raw = .ok entries) : entriesOf path' raw = .ok entries := by
  have single : ∀ v, ∀ entry, entryOf path v = .ok entry → entryOf path' v = .ok entry := by
    intro v entry h
    unfold entryOf at h ⊢
    split at h <;> first | exact h | cases h
  unfold entriesOf at h ⊢
  split at h
  · exact h
  · exact h
  · exact mapM_ok_of_imp (fun v _ => single v) h
  · next entry =>
    obtain ⟨e, he, h⟩ := except_bind_ok.mp h
    exact except_bind_ok.mpr ⟨e, single _ e he, h⟩

namespace SameAttributes

theorem settings (same : SameAttributes own own')
    (h : Schema.settings path inherited own = .ok here) :
    Schema.settings path' inherited own' = .ok here := by
  rw [settings_ok_iff] at h ⊢
  rw [same "x-help" (by decide), same "x-simpletag" (by decide)]
  exact h

theorem textOf (same : SameAttributes own own') {keyword : String}
    (hk : keyword ∉ shapeKeywords) {text : Option String} (h : Schema.textOf path own keyword = .ok text) :
    Schema.textOf path' own' keyword = .ok text := by
  unfold Schema.textOf at h ⊢
  rw [same keyword hk]
  split at h <;> first | exact h | cases h

theorem actionsOf (same : SameAttributes own own') {actions : List Action}
    (h : Schema.actionsOf path own = .ok actions) : Schema.actionsOf path' own' = .ok actions := by
  unfold Schema.actionsOf at h ⊢
  rw [same "x-action" (by decide)]
  obtain ⟨entries, hentries, h⟩ := except_bind_ok.mp h
  refine except_bind_ok.mpr ⟨entries, entriesOf_placed hentries, mapM_ok_of_imp ?_ h⟩
  rintro ⟨name, args⟩ - action h
  simp only at h ⊢
  split at h <;> first | exact h | cases h

theorem checksOf (same : SameAttributes own own') {checks : List Check}
    (h : Schema.checksOf path own = .ok checks) : Schema.checksOf path' own' = .ok checks := by
  unfold Schema.checksOf at h ⊢
  rw [same "x-check" (by decide)]
  obtain ⟨entries, hentries, h⟩ := except_bind_ok.mp h
  refine except_bind_ok.mpr ⟨entries, entriesOf_placed hentries, mapM_ok_of_imp ?_ h⟩
  rintro ⟨name, args⟩ - check h
  simp only at h ⊢
  split at h <;> first | exact h | cases h

theorem aliasesOf (same : SameAttributes own own') {aliases : List String}
    (h : Schema.aliasesOf path own = .ok aliases) : Schema.aliasesOf path' own' = .ok aliases := by
  unfold Schema.aliasesOf at h ⊢
  rw [same "x-alias" (by decide)]
  split at h
  · exact h
  · exact h
  · refine mapM_ok_of_imp (fun v _ tag h => ?_) h
    split at h <;> first | exact h | cases h
  · cases h

theorem attributesOf (same : SameAttributes own own') {a : Attributes}
    (h : Schema.attributesOf path here own = .ok a) : Schema.attributesOf path' here own' = .ok a := by
  unfold Schema.attributesOf at h ⊢
  obtain ⟨actions, hactions, h⟩ := except_bind_ok.mp h
  obtain ⟨checks, hchecks, h⟩ := except_bind_ok.mp h
  obtain ⟨description, hdescription, h⟩ := except_bind_ok.mp h
  obtain ⟨aliases, haliases, h⟩ := except_bind_ok.mp h
  refine except_bind_ok.mpr ⟨actions, same.actionsOf hactions, ?_⟩
  refine except_bind_ok.mpr ⟨checks, same.checksOf hchecks, ?_⟩
  refine except_bind_ok.mpr ⟨description, same.textOf (by decide) hdescription, ?_⟩
  refine except_bind_ok.mpr ⟨aliases, same.aliasesOf haliases, ?_⟩
  rw [same "default" (by decide)]
  exact h

end SameAttributes

theorem SameButParts.choicesOf (same : SameButParts own own')
    (h : Schema.choicesOf path own = .ok choices) : Schema.choicesOf path' own' = .ok choices := by
  unfold Schema.choicesOf at h ⊢
  rw [same.other "enum" (by decide) (by decide) (by decide)]
  split at h <;> first | exact h | cases h

/-! ## Shapes -/

/-- Nodes that are the same but for their shapes, which are in relation. -/
def RelatedNodes (P : Kind → Kind → Prop) (n n' : Node) : Prop :=
  ∃ kind kind' a choices, n = kind.toNode a choices ∧ n' = kind'.toNode a choices ∧ P kind kind'

theorem eq_of_relatedNodes {ns ns' : List Node} (h : List.Forall₂ (RelatedNodes Eq) ns ns') :
    ns = ns' := by
  induction h with
  | nil => rfl
  | cons head _ ih =>
      obtain ⟨kind, kind', a, choices, rfl, rfl, rfl⟩ := head
      rw [ih]

section Related

-- a relation that holds of two shapes as soon as it holds of what they are built from
variable {P : Kind → Kind → Prop}
  (hp : ∀ ps, properties = .ok ps → ∃ ps', properties' = .ok ps' ∧ P (.object ps) (.object ps'))
  (hi : ∀ n, items = .ok n → ∃ n', items' = .ok n' ∧ P (.array n) (.array n'))
  (hs : ∀ type, P (.scalar type) (.scalar type))

include hp hi hs

theorem kindOfName_related {name : String} {kind : Kind}
    (h : kindOfName path properties items name = .ok kind) :
    ∃ kind', kindOfName path' properties' items' name = .ok kind' ∧
      kind'.isScalar = kind.isScalar ∧ P kind kind' := by
  rcases kindOfName_ok_iff.mp h with ⟨hname, ps, hps, rfl⟩ | ⟨hname, n, hn, rfl⟩ |
    ⟨hobject, harray, type, htype, rfl⟩
  · obtain ⟨ps', hps', related⟩ := hp ps hps
    exact ⟨.object ps', kindOfName_ok_iff.mpr (.inl ⟨hname, ps', hps', rfl⟩), rfl, related⟩
  · obtain ⟨n', hn', related⟩ := hi n hn
    exact ⟨.array n', kindOfName_ok_iff.mpr (.inr (.inl ⟨hname, n', hn', rfl⟩)), rfl, related⟩
  · exact ⟨.scalar type, kindOfName_ok_iff.mpr (.inr (.inr ⟨hobject, harray, type, htype, rfl⟩)), rfl,
      hs type⟩

theorem named_related {name : String} {kind : Kind} {choices' : Option (List Value)}
    (h : (do withChoices path choices (← kindOfName path properties items name)) =
      .ok (kind, choices')) :
    ∃ kind', (do withChoices path' choices (← kindOfName path' properties' items' name)) =
      .ok (kind', choices') ∧ P kind kind' := by
  obtain ⟨k, hk, h⟩ := except_bind_ok.mp h
  obtain ⟨fine, rfl, rfl⟩ := withChoices_ok_iff.mp h
  obtain ⟨kind', hkind', scalar, related⟩ := kindOfName_related hp hi hs hk
  rw [← scalar] at fine
  exact ⟨kind', except_bind_ok.mpr ⟨kind', hkind', withChoices_ok_iff.mpr ⟨fine, rfl, rfl⟩⟩, related⟩

theorem alternativeOfName_related {name : String} {n : Node}
    (h : alternativeOfName path here properties items choices name = .ok n) :
    ∃ n', alternativeOfName path' here properties' items' choices name = .ok n' ∧
      RelatedNodes P n n' := by
  obtain ⟨kind, hkind, h⟩ := except_bind_ok.mp h
  obtain rfl := except_pure_ok.mp h
  obtain ⟨kind', hkind', -, related⟩ := kindOfName_related hp hi hs hkind
  exact ⟨_, except_bind_ok.mpr ⟨kind', hkind', rfl⟩, kind, kind', _, choices, rfl, rfl, related⟩

theorem kindOfType_related (same : SameButParts own own')
    (hu : ∀ ns ns', List.Forall₂ (RelatedNodes P) ns ns' → P (.union ns) (.union ns'))
    {kind : Kind} {choices' : Option (List Value)}
    (h : kindOfType path here own properties items choices = .ok (kind, choices')) :
    ∃ kind', kindOfType path' here own' properties' items' choices = .ok (kind', choices') ∧
      P kind kind' := by
  unfold kindOfType at h ⊢
  simp only at h ⊢
  rw [same.other "type" (by decide) (by decide) (by decide), same.properties, same.items]
  split at h
  · split at h
    · next hprops =>
      rw [if_pos hprops]
      exact named_related hp hi hs h
    · next hprops =>
      rw [if_neg hprops]
      split at h
      · next hitems =>
        rw [if_pos hitems]
        exact named_related hp hi hs h
      · next hitems =>
        cases h
        exact ⟨.scalar .any, by rw [if_neg hitems], hs .any⟩
  · exact named_related hp hi hs h
  · next names htype =>
    obtain ⟨texts, htexts, h⟩ := except_bind_ok.mp h
    have htexts' : typeNames path' names = .ok texts := by
      refine mapM_ok_of_imp (fun v _ name h => ?_) htexts
      split at h <;> first | exact h | cases h
    rw [htexts']
    split at h
    · cases h
    · exact named_related hp hi hs h
    · -- one alternative for each of several names
      next hnone hone =>
      obtain ⟨alternatives, halts, h⟩ := except_bind_ok.mp h
      cases h
      obtain ⟨alternatives', halts', related⟩ := mapM_ok_related
        (g := alternativeOfName path' here properties' items' choices)
        (fun name _ n hn => alternativeOfName_related hp hi hs hn) halts
      match texts, hnone, hone, halts' with
      | [], hnone, _, _ => exact (hnone rfl).elim
      | [single], _, hone, _ => exact (hone single rfl).elim
      | first :: second :: more, _, _, halts' =>
          refine ⟨.union alternatives', ?_, hu alternatives alternatives' related⟩
          exact except_bind_ok.mpr ⟨_, rfl, except_bind_ok.mpr ⟨alternatives', halts', rfl⟩⟩
  · cases h

end Related

/-! ## Nodes -/

/-- The node of one mapping from that of the other: the attributes are the same, and the
shapes are related if what is declared and listed is. -/
theorem buildNode_parts (path' : ParamPath) (same : SameButParts own own')
    {P : Inherited → Kind → Kind → Prop}
    (hone : ∀ here v vs ns, own.lookup "oneOf" = some (.array (v :: vs)) →
      buildAlternatives (path.key "oneOf") here 0 (v :: vs) = .ok ns →
        ∃ v' vs' ns', own'.lookup "oneOf" = some (.array (v' :: vs')) ∧
          buildAlternatives (path'.key "oneOf") here 0 (v' :: vs') = .ok ns' ∧
          P here (.union ns) (.union ns'))
    (hp : ∀ here ps, declaredProperties path here own = .ok ps →
      ∃ ps', declaredProperties path' here own' = .ok ps' ∧ P here (.object ps) (.object ps'))
    (hi : ∀ here n, declaredItems path here own = .ok n →
      ∃ n', declaredItems path' here own' = .ok n' ∧ P here (.array n) (.array n'))
    (hu : own.lookup "oneOf" = none → ∀ here ns ns',
      List.Forall₂ (RelatedNodes (P here)) ns ns' → P here (.union ns) (.union ns'))
    (hs : ∀ here type, P here (.scalar type) (.scalar type)) {n : Node}
    (h : buildNode path inherited (.object own) = .ok n) :
    ∃ here kind kind' a choices, attributesOf path here own = .ok a ∧ n = kind.toNode a choices ∧
      buildNode path' inherited (.object own') = .ok (kind'.toNode a choices) ∧ P here kind kind' := by
  obtain ⟨here, choices, kind, choices', a, hhere, hchoices, hkind, ha, rfl⟩ :=
    buildNode_object_ok.mp h
  obtain ⟨kind', hkind', related⟩ : ∃ kind',
      kindOf path' here own' choices = .ok (kind', choices') ∧ P here kind kind' := by
    unfold kindOf at hkind ⊢
    split at hkind
    · next v vs hOne =>
      split at hkind
      · cases hkind
      · next hnone =>
        obtain ⟨ns, hns, hkind⟩ := except_bind_ok.mp hkind
        cases hkind
        obtain ⟨v', vs', ns', hOne', hns', related⟩ := hone here v vs ns hOne hns
        refine ⟨.union ns', ?_, related⟩
        simp only [hOne', if_neg hnone, hns']
        rfl
    · cases hkind
    · next hOne =>
      have missing := same.oneOf
      rw [hOne, Option.isSome_none, Option.isSome_eq_false_iff, Option.isNone_iff_eq_none] at missing
      rw [missing]
      exact kindOfType_related (hp here) (hi here) (hs here) same (hu hOne here) hkind
  exact ⟨here, kind, kind', a, choices', ha, rfl, buildNode_object_ok.mpr ⟨here, choices, kind', choices',
    a, same.attributes.settings hhere, same.choicesOf hchoices, hkind', same.attributes.attributesOf ha,
    rfl⟩, related⟩

/-- The same for mappings that list the same alternatives. -/
theorem buildNode_related (path' : ParamPath) (same : SameKeywords own own')
    {P : Inherited → Kind → Kind → Prop}
    (hone : ∀ here v vs ns, own.lookup "oneOf" = some (.array (v :: vs)) →
      buildAlternatives (path.key "oneOf") here 0 (v :: vs) = .ok ns →
        ∃ ns', buildAlternatives (path'.key "oneOf") here 0 (v :: vs) = .ok ns' ∧
          P here (.union ns) (.union ns'))
    (hp : ∀ here ps, declaredProperties path here own = .ok ps →
      ∃ ps', declaredProperties path' here own' = .ok ps' ∧ P here (.object ps) (.object ps'))
    (hi : ∀ here n, declaredItems path here own = .ok n →
      ∃ n', declaredItems path' here own' = .ok n' ∧ P here (.array n) (.array n'))
    (hu : ∀ here ns ns', List.Forall₂ (RelatedNodes (P here)) ns ns' → P here (.union ns) (.union ns'))
    (hs : ∀ here type, P here (.scalar type) (.scalar type)) {n : Node}
    (h : buildNode path inherited (.object own) = .ok n) :
    ∃ here kind kind' a choices, attributesOf path here own = .ok a ∧ n = kind.toNode a choices ∧
      buildNode path' inherited (.object own') = .ok (kind'.toNode a choices) ∧ P here kind kind' := by
  refine buildNode_parts path' same.parts (fun here v vs ns hOne hns => ?_) hp hi (fun _ => hu) hs h
  obtain ⟨ns', hns', related⟩ := hone here v vs ns hOne hns
  exact ⟨v, vs, ns', by rw [same.other "oneOf" (by decide) (by decide), hOne], hns', related⟩

/-- **A document describes the same node at every place.** -/
theorem buildNode_placed :
    (∀ path inherited value, ∀ path' n, buildNode path inherited value = .ok n →
      buildNode path' inherited value = .ok n) ∧
    (∀ path inherited entries, ∀ path' ps, buildProperties path inherited entries = .ok ps →
      buildProperties path' inherited entries = .ok ps) ∧
    ∀ path inherited i values, ∀ path' j ns, buildAlternatives path inherited i values = .ok ns →
      buildAlternatives path' inherited j values = .ok ns := by
  apply buildNode.mutual_induct
  case case1 =>
    intro path inherited own ihOne ihProps ihItems path' n h
    have hp : ∀ here ps, declaredProperties path here own = .ok ps →
        declaredProperties path' here own = .ok ps := by
      intro here ps hps
      unfold declaredProperties at hps ⊢
      split at hps
      · exact hps
      · next declared hdeclared => exact ihProps here declared hdeclared path' ps hps
      · cases hps
    have hi : ∀ here n, declaredItems path here own = .ok n →
        declaredItems path' here own = .ok n := by
      intro here n hn
      unfold declaredItems at hn ⊢
      split at hn
      · exact hn
      · next items hitems => exact ihItems here items hitems _ n hn
    obtain ⟨here, kind, kind', a, choices, -, rfl, hbuild, rfl⟩ :=
      buildNode_related path' (.refl own) (P := fun _ kind kind' => kind = kind')
        (fun here v vs ns hOne hns => ⟨ns, ihOne here v vs hOne _ _ ns hns, rfl⟩)
        (fun here ps hps => ⟨ps, hp here ps hps, rfl⟩) (fun here n hn => ⟨n, hi here n hn, rfl⟩)
        (fun here ns ns' hns => congrArg Kind.union (eq_of_relatedNodes hns))
        (fun here type => rfl) h
    exact hbuild
  case case2 =>
    intro path inherited value hne path' n h
    rw [buildNode.eq_2 _ _ _ hne] at h
    cases h
  case case3 =>
    intro path inherited path' ps h
    rw [buildProperties] at h ⊢
    exact h
  case case4 =>
    intro path inherited key value rest ihNode ihRest path' ps h
    rw [buildProperties] at h ⊢
    obtain ⟨node, hnode, h⟩ := except_bind_ok.mp h
    obtain ⟨nodes, hnodes, h⟩ := except_bind_ok.mp h
    rw [ihNode _ node hnode, ihRest path' nodes hnodes]
    exact h
  case case5 =>
    intro path inherited i path' j ns h
    rw [buildAlternatives] at h ⊢
    exact h
  case case6 =>
    intro path inherited i value rest ihNode ihRest path' j ns h
    rw [buildAlternatives] at h ⊢
    obtain ⟨node, hnode, h⟩ := except_bind_ok.mp h
    obtain ⟨nodes, hnodes, h⟩ := except_bind_ok.mp h
    rw [ihNode _ node hnode, ihRest path' (j + 1) nodes hnodes]
    exact h

theorem declaredProperties_placed (same : own'.lookup "properties" = own.lookup "properties")
    {ps : Properties} (h : declaredProperties path here own = .ok ps) :
    declaredProperties path' here own' = .ok ps := by
  unfold declaredProperties at h ⊢
  rw [same]
  split at h
  · exact h
  · exact buildNode_placed.2.1 _ _ _ _ _ h
  · cases h

theorem declaredItems_placed (same : own'.lookup "items" = own.lookup "items") {n : Node}
    (h : declaredItems path here own = .ok n) : declaredItems path' here own' = .ok n := by
  unfold declaredItems at h ⊢
  rw [same]
  split at h
  · exact h
  · exact buildNode_placed.1 _ _ _ _ _ h

end Schema

end ParamTree
