import ParamTree.Proofs.Building

/-!
# Inherited settings

A mapping of a document may set the help level and the tag style of the node that it
describes; a node whose mapping sets none has those of the closest mapping around it that
does. `InEffect` states this by the mappings alone, and `Settled` that it holds of a node
and of every node below it. `buildNode_settled` says so of what the builder makes, with
one exception: the elements of an array whose mapping does not describe them have no
mapping of their own and take over nothing.
-/

namespace ParamTree

/-! ## Settings by the mappings around a node -/

/-- What the closest mapping with the keyword holds under it. The mappings are listed
from a node's own outwards. -/
def closest (keyword : String) (around : List Entries) : Option Value :=
  around.findSome? (·.lookup keyword)

/-- Are these the settings of the closest mappings that set them, and those of a bare
document where none does? -/
structure InEffect (around : List Entries) (here : Inherited) : Prop where
  helpLevel : (closest "x-help" around).elim (some 0) Value.asNat? = some here.helpLevel
  simpleTag : (closest "x-simpletag" around).elim (some true) Value.asBool? = some here.simpleTag

/-- The settings that a node has. -/
def Attributes.settings (a : Attributes) : Inherited := ⟨a.helpLevel, a.simpleTag⟩

/-- `Settled around n`: the node and every node below it have the settings in effect.
The first of the mappings `around` describes the node. -/
inductive Settled : List Entries → Node → Prop
  | object {own outer a properties} {declared : List (String × Entries)}
      (self : InEffect (own :: outer) a.settings)
      (keyword : own.lookup "properties" = some (.object (declared.map fun p => (p.1, .object p.2))))
      (keys : properties.map Prod.fst = declared.map Prod.fst)
      (below : ∀ p ∈ properties.zip declared, Settled (p.2.2 :: own :: outer) p.1.2) :
      Settled (own :: outer) (.object a properties)
  /-- No properties are declared. -/
  | empty {own outer a} (self : InEffect (own :: outer) a.settings)
      (keyword : own.lookup "properties" = none) : Settled (own :: outer) (.object a [])
  | array {own outer a items entries} (self : InEffect (own :: outer) a.settings)
      (keyword : own.lookup "items" = some (.object entries))
      (below : Settled (entries :: own :: outer) items) : Settled (own :: outer) (.array a items)
  /-- No mapping describes the elements, and nothing is in effect for them. -/
  | elements {own outer a} (self : InEffect (own :: outer) a.settings)
      (keyword : own.lookup "items" = none) :
      Settled (own :: outer) (.array a (.plainScalar .any))
  | union {own outer a alternatives} {listed : List Entries}
      (self : InEffect (own :: outer) a.settings)
      (keyword : own.lookup "oneOf" = some (.array (listed.map .object)))
      (length : alternatives.length = listed.length)
      (below : ∀ p ∈ alternatives.zip listed, Settled (p.2 :: own :: outer) p.1) :
      Settled (own :: outer) (.union a alternatives)
  /-- One mapping describes the union and its alternatives, by a list of type names. -/
  | names {own outer a alternatives} (self : InEffect (own :: outer) a.settings)
      (keyword : own.lookup "oneOf" = none)
      (below : ∀ n ∈ alternatives, Settled (own :: outer) n) :
      Settled (own :: outer) (.union a alternatives)
  | scalar {own outer a type choices} (self : InEffect (own :: outer) a.settings) :
      Settled (own :: outer) (.scalar a type choices)

theorem closest_cons (keyword : String) (own : Entries) (outer : List Entries) :
    closest keyword (own :: outer) = (own.lookup keyword).or (closest keyword outer) := by
  rw [closest, List.findSome?_cons]
  cases own.lookup keyword <;> rfl

theorem inEffect_nil : InEffect [] {} := ⟨rfl, rfl⟩

namespace Schema

variable {path : ParamPath} {inherited here : Inherited} {own : Entries} {outer : List Entries}
  {choices : Option (List Value)}

/-! ## The builder's settings -/

/-- The tag style is read after the help level, whatever that is. -/
theorem tagStyle_ok_iff {read level : Nat} {simple : Bool} :
    (do
      let simpleTag ← match own.lookup "x-simpletag" with
        | none => pure inherited.simpleTag
        | some (.bool b) => pure b
        | some _ => throw (malformed path .simpleTag)
      return { helpLevel := read, simpleTag } : Except SchemaError Inherited) = .ok ⟨level, simple⟩ ↔
      level = read ∧ match own.lookup "x-simpletag" with
        | none => simple = inherited.simpleTag
        | some raw => raw.asBool? = some simple := by
  cases own.lookup "x-simpletag" with
  | none => simp [pure, Except.pure, bind, Except.bind, eq_comm]
  | some raw =>
      cases raw <;>
        simp [pure, Except.pure, bind, Except.bind, throw, throwThe, MonadExceptOf.throw,
          Value.asBool?, eq_comm]

/-- Each setting is the one of the node's mapping, else the inherited one. -/
theorem settings_ok_iff : settings path inherited own = .ok here ↔
    (match own.lookup "x-help" with
      | none => here.helpLevel = inherited.helpLevel
      | some raw => raw.asNat? = some here.helpLevel ∧ here.helpLevel ≤ maxLevel) ∧
    match own.lookup "x-simpletag" with
      | none => here.simpleTag = inherited.simpleTag
      | some raw => raw.asBool? = some here.simpleTag := by
  obtain ⟨level, simple⟩ := here
  unfold settings
  cases own.lookup "x-help" with
  | none => exact tagStyle_ok_iff
  | some raw =>
      simp only
      cases raw.asNat? with
      | none => simp [bind, Except.bind, throw, throwThe, MonadExceptOf.throw]
      | some read =>
          simp only [Option.some.injEq]
          by_cases bounded : read ≤ maxLevel
          · rw [if_pos bounded]
            refine tagStyle_ok_iff.trans ?_
            grind
          · rw [if_neg bounded]
            simp only [bind, Except.bind, throw, throwThe, MonadExceptOf.throw, reduceCtorEq, false_iff]
            grind

theorem settings_inEffect (around : InEffect outer inherited)
    (h : settings path inherited own = .ok here) : InEffect (own :: outer) here := by
  obtain ⟨hlevel, hsimple⟩ := settings_ok_iff.mp h
  constructor
  · rw [closest_cons]
    cases hown : own.lookup "x-help" with
    | none =>
        rw [hown] at hlevel
        rw [Option.none_or, show here.helpLevel = inherited.helpLevel from hlevel]
        exact around.helpLevel
    | some raw =>
        rw [hown] at hlevel
        exact hlevel.1
  · rw [closest_cons]
    cases hown : own.lookup "x-simpletag" with
    | none =>
        rw [hown] at hsimple
        rw [Option.none_or, show here.simpleTag = inherited.simpleTag from hsimple]
        exact around.simpleTag
    | some raw =>
        rw [hown] at hsimple
        exact hsimple

theorem attributesOf_settings {a : Attributes} (h : attributesOf path here own = .ok a) :
    a.settings = here := by
  unfold attributesOf at h
  obtain ⟨_, -, h⟩ := except_bind_ok.mp h
  obtain ⟨_, -, h⟩ := except_bind_ok.mp h
  obtain ⟨_, -, h⟩ := except_bind_ok.mp h
  obtain ⟨_, -, h⟩ := except_bind_ok.mp h
  obtain rfl := except_pure_ok.mp h
  rfl

end Schema

/-! ## Shapes -/

/-- Is a node of this shape settled as soon as it has the settings in effect itself? -/
def Kind.Settles (around : List Entries) (kind : Kind) : Prop :=
  ∀ a choices, InEffect around a.settings → Settled around (kind.toNode a choices)

namespace Schema

variable {path : ParamPath} {inherited here : Inherited} {own : Entries} {outer : List Entries}
  {choices : Option (List Value)} {properties : Except SchemaError Properties}
  {items : Except SchemaError Node}

theorem kindOfName_settles {name : String} {kind : Kind}
    (hp : ∀ ps, properties = .ok ps → (Kind.object ps).Settles (own :: outer))
    (hi : ∀ n, items = .ok n → (Kind.array n).Settles (own :: outer))
    (h : kindOfName path properties items name = .ok kind) : kind.Settles (own :: outer) := by
  rcases kindOfName_ok_iff.mp h with ⟨-, ps, hps, rfl⟩ | ⟨-, n, hn, rfl⟩ | ⟨-, -, type, -, rfl⟩
  · exact hp ps hps
  · exact hi n hn
  · exact fun _ _ self => Settled.scalar self

theorem kindOfType_settles {kind : Kind} {choices' : Option (List Value)}
    (effect : InEffect (own :: outer) here) (noUnion : own.lookup "oneOf" = none)
    (hp : ∀ ps, properties = .ok ps → (Kind.object ps).Settles (own :: outer))
    (hi : ∀ n, items = .ok n → (Kind.array n).Settles (own :: outer))
    (h : kindOfType path here own properties items choices = .ok (kind, choices')) :
    kind.Settles (own :: outer) := by
  rcases kindOfType_ok h with ⟨name, -, hk, -⟩ | ⟨-, rfl, -⟩ | ⟨names, alternatives, -, halts, rfl, -⟩
  · exact kindOfName_settles hp hi hk
  · exact fun _ _ self => Settled.scalar self
  · -- each alternative gets the settings of the node itself
    refine fun _ _ self => Settled.names self noUnion fun n hn => ?_
    obtain ⟨name, -, hname⟩ := mem_of_mapM_ok halts hn
    obtain ⟨k, hk, hname⟩ := except_bind_ok.mp hname
    cases hname
    exact kindOfName_settles hp hi hk _ _ effect

/-- **What the builder makes is settled**, from the mappings around a value on. -/
theorem buildNode_settled :
    (∀ path inherited value, ∀ outer, InEffect outer inherited → ∀ n,
      buildNode path inherited value = .ok n →
        ∃ own, value = .object own ∧ Settled (own :: outer) n) ∧
    (∀ path inherited entries, ∀ outer, InEffect outer inherited → ∀ ps,
      buildProperties path inherited entries = .ok ps →
        ∃ declared : List (String × Entries), entries = declared.map (fun p => (p.1, .object p.2)) ∧
          ps.map Prod.fst = declared.map Prod.fst ∧
          ∀ p ∈ ps.zip declared, Settled (p.2.2 :: outer) p.1.2) ∧
    ∀ path inherited i values, ∀ outer, InEffect outer inherited → ∀ ns,
      buildAlternatives path inherited i values = .ok ns →
        ∃ listed : List Entries, values = listed.map .object ∧ ns.length = listed.length ∧
          ∀ p ∈ ns.zip listed, Settled (p.2 :: outer) p.1 := by
  apply buildNode.mutual_induct
  case case1 =>
    intro path inherited own ihOne ihProps ihItems outer around n h
    obtain ⟨here, choices, kind, choices', a, hhere, -, hkind, ha, rfl⟩ := buildNode_object_ok.mp h
    have effect := settings_inEffect around hhere
    have settles : kind.Settles (own :: outer) := by
      unfold kindOf at hkind
      split at hkind
      · next v vs hOne =>
        split at hkind
        · cases hkind
        · obtain ⟨alternatives, halts, hkind⟩ := except_bind_ok.mp hkind
          cases hkind
          obtain ⟨listed, hvalues, length, below⟩ := ihOne here v vs hOne _ effect alternatives halts
          rw [hvalues] at hOne
          exact fun _ _ self => Settled.union self hOne length below
      · cases hkind
      · next hOne =>
        refine kindOfType_settles effect hOne ?_ ?_ hkind
        · intro ps hps
          unfold declaredProperties at hps
          split at hps
          · next hProps =>
            cases hps
            exact fun _ _ self => Settled.empty self hProps
          · next declared hProps =>
            obtain ⟨_, rfl, keys, below⟩ := ihProps here declared hProps _ effect ps hps
            exact fun _ _ self => Settled.object self hProps keys below
          · cases hps
        · intro m hm
          unfold declaredItems at hm
          split at hm
          · next hItems =>
            cases hm
            exact fun _ _ self => Settled.elements self hItems
          · next items hItems =>
            obtain ⟨entries, rfl, below⟩ := ihItems here items hItems _ effect m hm
            exact fun _ _ self => Settled.array self hItems below
    exact ⟨own, rfl, settles a choices' ((attributesOf_settings ha).symm ▸ effect)⟩
  case case2 =>
    intro path inherited value hne outer around n h
    rw [buildNode.eq_2 _ _ _ hne] at h
    cases h
  case case3 =>
    intro path inherited outer around ps h
    rw [buildProperties] at h
    cases h
    exact ⟨[], rfl, rfl, by simp⟩
  case case4 =>
    intro path inherited key value rest ihNode ihRest outer around ps h
    rw [buildProperties] at h
    obtain ⟨node, hnode, h⟩ := except_bind_ok.mp h
    obtain ⟨nodes, hnodes, h⟩ := except_bind_ok.mp h
    obtain rfl := except_pure_ok.mp h
    obtain ⟨own, rfl, settled⟩ := ihNode outer around node hnode
    obtain ⟨declared, rfl, keys, below⟩ := ihRest outer around nodes hnodes
    refine ⟨(key, own) :: declared, rfl, by simp [keys], ?_⟩
    rw [List.zip_cons_cons]
    exact List.forall_mem_cons.mpr ⟨settled, below⟩
  case case5 =>
    intro path inherited i outer around ns h
    rw [buildAlternatives] at h
    cases h
    exact ⟨[], rfl, rfl, by simp⟩
  case case6 =>
    intro path inherited i value rest ihNode ihRest outer around ns h
    rw [buildAlternatives] at h
    obtain ⟨node, hnode, h⟩ := except_bind_ok.mp h
    obtain ⟨nodes, hnodes, h⟩ := except_bind_ok.mp h
    obtain rfl := except_pure_ok.mp h
    obtain ⟨own, rfl, settled⟩ := ihNode outer around node hnode
    obtain ⟨listed, rfl, length, below⟩ := ihRest outer around nodes hnodes
    refine ⟨own :: listed, rfl, by simp [length], ?_⟩
    rw [List.zip_cons_cons]
    exact List.forall_mem_cons.mpr ⟨settled, below⟩

end Schema

end ParamTree
