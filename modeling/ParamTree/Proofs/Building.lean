import ParamTree.Proofs.OneByOne
import ParamTree.Proofs.Tree

/-!
# Building nodes

`buildNode_object` gives the builder's steps in a row: the settings, the literals,
the shape by its keywords (`kindOf`), the attributes. A schema is `Built` if it
comes from a document in which no mapping repeats a key; its tree then declares no
property twice (`Schema.Built.distinct`).
-/

namespace ParamTree

/-! ## Well-formed values -/

namespace Value

theorem wellFormed_of_mem_entries {entries : Entries} (h : WellFormedEntries entries)
    {key : String} {v : Value} (hv : (key, v) ∈ entries) : v.WellFormed := by
  induction entries with
  | nil => cases hv
  | cons entry rest ih =>
      obtain ⟨hw, hrest⟩ := h
      rcases List.mem_cons.mp hv with rfl | hv
      · exact hw
      · exact ih hrest hv

theorem wellFormed_of_lookup {entries : Entries} (h : (Value.object entries).WellFormed)
    {key : String} {v : Value} (hv : entries.lookup key = some v) : v.WellFormed :=
  wellFormed_of_mem_entries h.2 (mem_of_lookup hv)

end Value

namespace Schema

variable {path : ParamPath} {inherited here : Inherited} {entries : Entries}
  {choices : Option (List Value)}

/-! ## The steps of the builder -/

/-- The properties that the keyword declares. -/
def declaredProperties (path : ParamPath) (here : Inherited) (entries : Entries) :
    Except SchemaError Properties :=
  match entries.lookup "properties" with
  | none => .ok []
  | some (.object declared) => buildProperties path here declared
  | some _ => .error (malformed path .propertiesNotMapping)

/-- The items that the keyword declares. -/
def declaredItems (path : ParamPath) (here : Inherited) (entries : Entries) :
    Except SchemaError Node :=
  match entries.lookup "items" with
  | none => .ok (Node.plainScalar .any)
  | some items => buildNode (path.key "items") here items

/-- The shape of a node by its keywords, with the literals that stay on the node. -/
def kindOf (path : ParamPath) (here : Inherited) (entries : Entries)
    (choices : Option (List Value)) : Except SchemaError (Kind × Option (List Value)) :=
  match entries.lookup "oneOf" with
  | some (.array (v :: vs)) =>
    if choices.isSome then .error (malformed path .enumOnUnion)
    else do
      let alternatives ← buildAlternatives (path.key "oneOf") here 0 (v :: vs)
      return (.union alternatives, none)
  | some _ => .error (malformed path .emptyOneOf)
  | none =>
    kindOfType path here entries (declaredProperties path here entries)
      (declaredItems path here entries) choices

theorem buildNode_object (path : ParamPath) (inherited : Inherited) (entries : Entries) :
    buildNode path inherited (.object entries) = do
      let here ← settings path inherited entries
      let choices ← choicesOf path entries
      let (kind, choices) ← kindOf path here entries choices
      let attrs ← attributesOf path here entries
      return kind.toNode attrs choices := by
  rw [buildNode]
  congr 1
  funext here
  congr 1
  funext choices
  unfold kindOf declaredProperties declaredItems
  split
  · next v vs h =>
    simp only [h]
    split
    · rfl
    · simp
  · next w hne h =>
    simp only [h]
    rfl
  · next h =>
    simp only [h]
    congr 2
    · split
      · next hp => simp only [hp]
      · next declared hp => simp only [hp]
      · next w hne hp => simp only [hp]
    · split
      · next hi => simp only [hi]
      · next items hi => simp only [hi]

/-- Only mappings describe nodes. -/
theorem object_of_buildNode {inherited : Inherited} {value : Value} {n : Node}
    (h : buildNode path inherited value = .ok n) : ∃ own, value = .object own := by
  cases value with
  | object own => exact ⟨own, rfl⟩
  | null | bool | number | string | array =>
      rw [buildNode] at h
      · cases h
      · simp

/-- The steps that build a node, each with its result. -/
theorem buildNode_object_ok {inherited : Inherited} {n : Node} :
    buildNode path inherited (.object entries) = .ok n ↔ ∃ here choices kind choices' a,
      settings path inherited entries = .ok here ∧ choicesOf path entries = .ok choices ∧
      kindOf path here entries choices = .ok (kind, choices') ∧
      attributesOf path here entries = .ok a ∧ n = kind.toNode a choices' := by
  rw [buildNode_object]
  constructor
  · intro h
    obtain ⟨here, hhere, h⟩ := except_bind_ok.mp h
    obtain ⟨choices, hchoices, h⟩ := except_bind_ok.mp h
    obtain ⟨⟨kind, choices'⟩, hkind, h⟩ := except_bind_ok.mp h
    obtain ⟨a, ha, h⟩ := except_bind_ok.mp h
    exact ⟨here, choices, kind, choices', a, hhere, hchoices, hkind, ha, except_pure_ok.mp h⟩
  · rintro ⟨here, choices, kind, choices', a, hhere, hchoices, hkind, ha, rfl⟩
    rw [hhere, hchoices]
    refine except_bind_ok.mpr ⟨here, rfl, except_bind_ok.mpr ⟨choices, rfl, ?_⟩⟩
    exact except_bind_ok.mpr ⟨_, hkind, except_bind_ok.mpr ⟨a, ha, rfl⟩⟩

section Shapes

variable {properties : Except SchemaError Properties} {items : Except SchemaError Node}
  {kind : Kind} {choices' : Option (List Value)}

/-- The shapes of the type names. -/
theorem kindOfName_ok_iff {name : String} : kindOfName path properties items name = .ok kind ↔
    (name = "object" ∧ ∃ ps, properties = .ok ps ∧ kind = .object ps) ∨
      (name = "array" ∧ ∃ n, items = .ok n ∧ kind = .array n) ∨
      (name ≠ "object" ∧ name ≠ "array" ∧
        ∃ type, Primitive.ofName? name = some type ∧ kind = .scalar type) := by
  unfold kindOfName
  by_cases hobject : name = "object"
  · subst hobject
    simp [except_map_ok, eq_comm]
  by_cases harray : name = "array"
  · subst harray
    simp [except_map_ok, eq_comm]
  cases Primitive.ofName? name <;> simp [hobject, harray, eq_comm]

theorem withChoices_ok_iff {kind' : Kind} :
    withChoices path choices kind = .ok (kind', choices') ↔
      (choices.isSome && !kind.isScalar) = false ∧ kind' = kind ∧ choices' = choices := by
  unfold withChoices
  split
  · next composite => simp [composite]
  · next fine => simp [fine, eq_comm]

theorem typeNames_ok {names : List Value} {texts : List String}
    (h : typeNames path names = .ok texts) : names = texts.map .string := by
  induction names generalizing texts with
  | nil =>
      cases h
      rfl
  | cons name rest ih =>
      unfold typeNames at h ih
      rw [List.mapM_cons] at h
      obtain ⟨text, hname, h⟩ := except_bind_ok.mp h
      obtain ⟨more, hrest, h⟩ := except_bind_ok.mp h
      obtain rfl := except_pure_ok.mp h
      rw [ih hrest, List.map_cons]
      cases name with
      | string s =>
          cases hname
          rfl
      | null | bool | number | array | object => cases hname

/-- The shape of a node without `oneOf` is that of one type name, or any scalar where no
keyword says more, or the union of several type names. -/
theorem kindOfType_ok
    (h : kindOfType path here entries properties items choices = .ok (kind, choices')) :
    (∃ name, (∀ names, entries.lookup "type" = some (.array names) → names = [.string name]) ∧
      kindOfName path properties items name = .ok kind ∧
      (choices.isSome && !kind.isScalar) = false ∧ choices' = choices) ∨
    (entries.lookup "type" = none ∧ kind = .scalar .any ∧ choices' = choices) ∨
    ∃ (names : List String) (alternatives : List Node),
      entries.lookup "type" = some (.array (names.map .string)) ∧
      names.mapM (alternativeOfName path here properties items choices) = .ok alternatives ∧
      kind = .union alternatives ∧ choices' = none := by
  have named : ∀ name, (do withChoices path choices (← kindOfName path properties items name)) =
      .ok (kind, choices') → kindOfName path properties items name = .ok kind ∧
        (choices.isSome && !kind.isScalar) = false ∧ choices' = choices := by
    intro name h
    obtain ⟨k, hk, h⟩ := except_bind_ok.mp h
    obtain ⟨fine, rfl, rfl⟩ := withChoices_ok_iff.mp h
    exact ⟨hk, fine, rfl⟩
  unfold kindOfType at h
  simp only at h
  split at h
  · next untyped =>
    split at h
    · exact .inl ⟨"object", by simp [untyped], named _ h⟩
    · split at h
      · exact .inl ⟨"array", by simp [untyped], named _ h⟩
      · cases h
        exact .inr (.inl ⟨untyped, rfl, rfl⟩)
  · next name typed => exact .inl ⟨name, by simp [typed], named _ h⟩
  · next names typed =>
    obtain ⟨texts, htexts, h⟩ := except_bind_ok.mp h
    rw [typeNames_ok htexts] at typed
    split at h
    · cases h
    · next single => exact .inl ⟨single, by simp [typed], named _ h⟩
    · obtain ⟨alternatives, halts, h⟩ := except_bind_ok.mp h
      cases h
      exact .inr (.inr ⟨_, alternatives, typed, halts, rfl, rfl⟩)
  · cases h

end Shapes

end Schema

/-! ## Distinct keys -/

/-- No property is declared twice, in the shape or below it. -/
def Kind.Distinct : Kind → Prop
  | .object properties =>
    (properties.map Prod.fst).Nodup ∧ ∀ p ∈ properties, p.2.Every Node.DistinctKeys
  | .array items => items.Every Node.DistinctKeys
  | .union alternatives => ∀ n ∈ alternatives, n.Every Node.DistinctKeys
  | .scalar _ => True

theorem Kind.Distinct.toNode {kind : Kind} (h : kind.Distinct) (attrs : Attributes)
    (choices : Option (List Value)) : (kind.toNode attrs choices).Every Node.DistinctKeys := by
  cases kind with
  | object properties => exact Node.every_object.mpr h
  | array items => exact Node.every_array.mpr ⟨List.nodup_nil, h⟩
  | union alternatives => exact Node.every_union.mpr ⟨List.nodup_nil, h⟩
  | scalar type => exact Node.every_scalar.mpr List.nodup_nil

namespace Schema

section Distinct

variable {path : ParamPath} {inherited here : Inherited} {entries : Entries}
  {choices : Option (List Value)} {properties : Except SchemaError Properties}
  {items : Except SchemaError Node}

theorem kindOfName_distinct {name : String} {kind : Kind}
    (hp : ∀ ps, properties = .ok ps → (Kind.object ps).Distinct)
    (hi : ∀ n, items = .ok n → (Kind.array n).Distinct)
    (h : kindOfName path properties items name = .ok kind) : kind.Distinct := by
  rcases kindOfName_ok_iff.mp h with ⟨-, ps, hps, rfl⟩ | ⟨-, n, hn, rfl⟩ | ⟨-, -, type, -, rfl⟩
  · exact hp ps hps
  · exact hi n hn
  · trivial

theorem kindOfType_distinct {kind : Kind} {choices' : Option (List Value)}
    (hp : ∀ ps, properties = .ok ps → (Kind.object ps).Distinct)
    (hi : ∀ n, items = .ok n → (Kind.array n).Distinct)
    (h : kindOfType path here entries properties items choices = .ok (kind, choices')) :
    kind.Distinct := by
  rcases kindOfType_ok h with ⟨name, -, hk, -⟩ | ⟨-, rfl, -⟩ | ⟨names, alternatives, -, halts, rfl, -⟩
  · exact kindOfName_distinct hp hi hk
  · trivial
  · intro n hn
    obtain ⟨name, -, hname⟩ := mem_of_mapM_ok halts hn
    obtain ⟨k, hk, hname⟩ := except_bind_ok.mp hname
    cases hname
    exact (kindOfName_distinct hp hi hk).toNode _ _

/-- The builder keeps the keys of a document's mappings, so no node that it builds
declares a property twice. -/
theorem buildNode_distinct :
    (∀ path inherited value, Value.WellFormed value → ∀ n,
      buildNode path inherited value = .ok n → n.Every Node.DistinctKeys) ∧
    (∀ path inherited entries, Value.WellFormedEntries entries → ∀ ps,
      buildProperties path inherited entries = .ok ps →
        ps.map Prod.fst = entries.map Prod.fst ∧ ∀ p ∈ ps, p.2.Every Node.DistinctKeys) ∧
    ∀ path inherited i values, Value.WellFormedItems values → ∀ ns,
      buildAlternatives path inherited i values = .ok ns →
        ∀ n ∈ ns, n.Every Node.DistinctKeys := by
  -- along the builder: new keys come from the `properties` keyword alone
  apply buildNode.mutual_induct
  case case1 =>
    intro path inherited entries ihOne ihProps ihItems wf n h
    obtain ⟨here, choices, kind, choices', attrs, -, -, hkind, -, rfl⟩ := buildNode_object_ok.mp h
    refine Kind.Distinct.toNode ?_ attrs choices'
    unfold kindOf at hkind
    split at hkind
    · next v vs hOne =>
      split at hkind
      · cases hkind
      · obtain ⟨alternatives, halts, hkind⟩ := except_bind_ok.mp hkind
        cases hkind
        exact ihOne here v vs hOne (Value.wellFormed_of_lookup wf hOne) alternatives halts
    · cases hkind
    · refine kindOfType_distinct ?_ ?_ hkind
      · intro ps hps
        unfold declaredProperties at hps
        split at hps
        · cases hps
          exact ⟨List.nodup_nil, by simp⟩
        · next declared hProps =>
          have wfDeclared := Value.wellFormed_of_lookup wf hProps
          obtain ⟨hkeys, hbelow⟩ := ihProps here declared hProps wfDeclared.2 ps hps
          exact ⟨hkeys ▸ wfDeclared.1, hbelow⟩
        · cases hps
      · intro m hm
        unfold declaredItems at hm
        split at hm
        · cases hm
          exact Node.every_scalar.mpr List.nodup_nil
        · next items hItems =>
          exact ihItems here items hItems (Value.wellFormed_of_lookup wf hItems) m hm
  case case2 =>
    intro path inherited value hne wf n h
    rw [buildNode.eq_2 _ _ _ hne] at h
    cases h
  case case3 =>
    intro path inherited wf ps h
    rw [buildProperties] at h
    cases h
    simp
  case case4 =>
    intro path inherited key value rest ihNode ihRest wf ps h
    rw [buildProperties] at h
    obtain ⟨node, hnode, h⟩ := except_bind_ok.mp h
    obtain ⟨nodes, hnodes, h⟩ := except_bind_ok.mp h
    obtain rfl := except_pure_ok.mp h
    obtain ⟨hkeys, hbelow⟩ := ihRest wf.2 nodes hnodes
    refine ⟨by simp [hkeys], ?_⟩
    intro p hp
    rcases List.mem_cons.mp hp with rfl | hp
    · exact ihNode wf.1 node hnode
    · exact hbelow p hp
  case case5 =>
    intro path inherited i wf ns h
    rw [buildAlternatives] at h
    cases h
    simp
  case case6 =>
    intro path inherited i value rest ihNode ihRest wf ns h
    rw [buildAlternatives] at h
    obtain ⟨node, hnode, h⟩ := except_bind_ok.mp h
    obtain ⟨nodes, hnodes, h⟩ := except_bind_ok.mp h
    obtain rfl := except_pure_ok.mp h
    intro n hn
    rcases List.mem_cons.mp hn with rfl | hn
    · exact ihNode wf.1 n hnode
    · exact ihRest wf.2 nodes hnodes n hn

end Distinct

/-! ## Built schemas -/

/-- Is the schema the one that a document describes? A document gives no key twice
in a mapping. -/
def Built (s : Schema) : Prop := ∃ document : Value, document.WellFormed ∧ ofValue document = .ok s

variable {s : Schema}

/-- The steps that build a schema. -/
theorem ofValue_object_iff {own : Entries} : ofValue (.object own) = .ok s ↔
    buildNode .root {} (.object own) = .ok s.root ∧ s.root.isObject = true ∧
      FlagTable.derive s.root = .ok s.flags ∧ textOf .root own "title" = .ok s.title ∧
      textOf .root own "description" = .ok s.description := by
  unfold ofValue
  constructor
  · intro h
    obtain ⟨root, hroot, h⟩ := except_bind_ok.mp h
    cases hobject : root.isObject with
    | false =>
        rw [hobject] at h
        cases h
    | true =>
        simp only [hobject, Bool.not_true, Bool.false_eq_true, if_false] at h
        obtain ⟨flags, hflags, h⟩ := except_bind_ok.mp h
        obtain ⟨title, htitle, h⟩ := except_bind_ok.mp h
        obtain ⟨description, hdescription, h⟩ := except_bind_ok.mp h
        cases h
        exact ⟨hroot, hobject, hflags, htitle, hdescription⟩
  · rintro ⟨hroot, hobject, hflags, htitle, hdescription⟩
    simp only [hroot, hobject, hflags, htitle, hdescription, bind, Except.bind]
    rfl

theorem ofValue_ok {document : Value} (h : ofValue document = .ok s) :
    buildNode .root {} document = .ok s.root ∧ s.root.isObject = true ∧
      FlagTable.derive s.root = .ok s.flags := by
  obtain ⟨_, hbuilt, -⟩ := except_bind_ok.mp h
  obtain ⟨own, rfl⟩ := object_of_buildNode hbuilt
  obtain ⟨hroot, hobject, hflags, -, -⟩ := ofValue_object_iff.mp h
  exact ⟨hroot, hobject, hflags⟩

theorem Built.root_object (h : s.Built) : ∃ a properties, s.root = .object a properties := by
  obtain ⟨document, -, h⟩ := h
  obtain ⟨-, hobject, -⟩ := ofValue_ok h
  cases hr : s.root with
  | object a properties => exact ⟨a, properties, rfl⟩
  | array | union | scalar => rw [hr] at hobject; cases hobject

theorem Built.distinct (h : s.Built) : s.root.Every Node.DistinctKeys := by
  obtain ⟨document, wf, h⟩ := h
  exact buildNode_distinct.1 _ _ document wf s.root (ofValue_ok h).1

theorem Built.flags (h : s.Built) : FlagTable.derive s.root = .ok s.flags := by
  obtain ⟨document, -, h⟩ := h
  exact (ofValue_ok h).2.2

end Schema

end ParamTree
