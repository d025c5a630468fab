import ParamTree.Proofs.Restriction
import ParamTree.Proofs.Rewriting
import ParamTree.Proofs.Selection

/-!
# Two spellings of a union

A mapping may list type names, or alternatives under `oneOf`. Each name stands for one
alternative (`alternativeOf`): the mapping with that name alone and with the keyword among
`items`, `properties` and `enum` that belongs to it. The builder makes the alternatives of a
list of names by itself and those of a `oneOf` by going on in them; `buildNode_spelledOut`
says that both give one node, and `ofValue_respelled` that a document may be respelled in any
number of places.
-/

namespace ParamTree

namespace Schema

/-! ## The spellings -/

/-- The keyword that belongs to a type name. -/
def keywordFor (name : String) : Option String :=
  if name = "object" then some "properties"
  else if name = "array" then some "items"
  else if (Primitive.ofName? name).isSome then some "enum"
  else none

/-- The entries of the alternative that a type name stands for in a mapping. -/
def alternativeEntries (own : Entries) (name : String) : Entries :=
  ("type", .string name) :: own.filter fun entry => keywordFor name = some entry.1

/-- The alternative that a type name stands for in a mapping. -/
def alternativeOf (own : Entries) (name : String) : Value := .object (alternativeEntries own name)

/-- Does the mapping describe a union by these type names? -/
structure ListsNames (own : Entries) (names : List String) : Prop where
  noUnion : own.lookup "oneOf" = none
  type : own.lookup "type" = some (.array (names.map .string))
  several : 2 ≤ names.length
  enum : own.lookup "enum" = none ∨ ∃ v vs, own.lookup "enum" = some (.array (v :: vs))

/-- Does the second mapping spell out the names of the first as alternatives? It keeps every
keyword that is not about the shape. -/
structure SpellsOut (own own' : Entries) (names : List String) : Prop where
  kept : SameAttributes own own'
  dropped : ∀ keyword ∈ ["type", "enum", "properties", "items"], own'.lookup keyword = none
  oneOf : own'.lookup "oneOf" = some (.array (names.map (alternativeOf own)))

/-- The rule that spells out the names of one mapping. -/
def Respells (_listed : Bool) (own own' : Entries) : Prop :=
  ∃ names, ListsNames own names ∧ SpellsOut own own' names

variable {path path' : ParamPath} {inherited here : Inherited} {own own' : Entries}
  {name : String} {names : List String} {choices : Option (List Value)}
  {properties : Except SchemaError Properties} {items : Except SchemaError Node}

/-! ## One alternative -/

theorem lookup_alternativeEntries (own : Entries) (name keyword : String) :
    (alternativeEntries own name).lookup keyword =
      if keyword = "type" then some (.string name)
      else if keywordFor name = some keyword then own.lookup keyword
      else none := by
  rw [alternativeEntries, List.lookup_cons]
  by_cases htype : keyword = "type"
  · rw [if_pos htype, beq_iff_eq.mpr htype]
  · rw [if_neg htype, beq_false_of_ne htype, lookup_filter fun k => decide (keywordFor name = some k)]
    simp only [decide_eq_true_eq]

/-- A mapping with a type name and nothing but its shape. -/
theorem buildNode_bare {alternative : Entries} (bare : SameAttributes [] alternative)
    (noUnion : alternative.lookup "oneOf" = none)
    (type : alternative.lookup "type" = some (.string name)) {n : Node} :
    buildNode path here (.object alternative) = .ok n ↔ ∃ choices kind,
      choicesOf path alternative = .ok choices ∧
      kindOfName path (declaredProperties path here alternative) (declaredItems path here alternative)
        name = .ok kind ∧
      (choices.isSome && !kind.isScalar) = false ∧
      n = kind.toNode { helpLevel := here.helpLevel, simpleTag := here.simpleTag } choices := by
  have settled : settings path here alternative = .ok here :=
    bare.settings (show settings path here [] = .ok here from rfl)
  have attributes : attributesOf path here alternative =
      .ok { helpLevel := here.helpLevel, simpleTag := here.simpleTag } :=
    bare.attributesOf (show attributesOf path here [] = .ok _ from rfl)
  have shape : ∀ choices, kindOf path here alternative choices =
      kindOfName path (declaredProperties path here alternative)
        (declaredItems path here alternative) name >>= withChoices path choices := by
    intro choices
    simp only [kindOf, noUnion, kindOfType, type]
  rw [buildNode_object]
  constructor
  · intro h
    obtain ⟨_, hhere, h⟩ := except_bind_ok.mp h
    obtain rfl := Except.ok.inj (settled.symm.trans hhere)
    obtain ⟨choices, hchoices, h⟩ := except_bind_ok.mp h
    obtain ⟨⟨kind, choices'⟩, hkind, h⟩ := except_bind_ok.mp h
    obtain ⟨a, ha, h⟩ := except_bind_ok.mp h
    obtain rfl := Except.ok.inj (attributes.symm.trans ha)
    obtain rfl := except_pure_ok.mp h
    rw [shape] at hkind
    obtain ⟨named, hnamed, hwith⟩ := except_bind_ok.mp hkind
    obtain ⟨fine, rfl, rfl⟩ := withChoices_ok_iff.mp hwith
    exact ⟨choices', kind, hchoices, hnamed, fine, rfl⟩
  · rintro ⟨choices, kind, hchoices, hnamed, fine, rfl⟩
    refine except_bind_ok.mpr ⟨here, settled, except_bind_ok.mpr ⟨choices, hchoices, ?_⟩⟩
    refine except_bind_ok.mpr ⟨(kind, choices), ?_, except_bind_ok.mpr ⟨_, attributes, rfl⟩⟩
    rw [shape]
    exact except_bind_ok.mpr ⟨kind, hnamed, withChoices_ok_iff.mpr ⟨fine, rfl, rfl⟩⟩

/-- The shape of a type name needs the keyword of the name alone. -/
theorem kindOfName_alternative (path path' : ParamPath) {kind : Kind} :
    kindOfName path (declaredProperties path here (alternativeEntries own name))
        (declaredItems path here (alternativeEntries own name)) name = .ok kind ↔
      kindOfName path' (declaredProperties path' here own) (declaredItems path' here own) name =
        .ok kind := by
  have same : ∀ keyword, keywordFor name = some keyword → keyword ≠ "type" →
      (alternativeEntries own name).lookup keyword = own.lookup keyword := by
    intro keyword hk htype
    rw [lookup_alternativeEntries, if_neg htype, if_pos hk]
  unfold kindOfName
  split
  · next hname =>
    have same := same "properties" (if_pos hname) (by decide)
    rw [except_map_ok, except_map_ok]
    refine exists_congr fun ps => and_congr_left fun _ => ?_
    exact ⟨declaredProperties_placed same.symm, declaredProperties_placed same⟩
  · next hobject =>
    split
    · next hname =>
      have same := same "items" ((if_neg hobject).trans (if_pos hname)) (by decide)
      rw [except_map_ok, except_map_ok]
      refine exists_congr fun n => and_congr_left fun _ => ?_
      exact ⟨declaredItems_placed same.symm, declaredItems_placed same⟩
    · cases Primitive.ofName? name with
      | some type => rfl
      | none => simp

/-- The literals stay with the alternatives that are scalars. -/
theorem choicesOf_alternative (path' : ParamPath) {kind : Kind}
    (hchoices : choicesOf path own = .ok choices)
    (h : kindOfName path properties items name = .ok kind) :
    ∃ choices', choicesOf path' (alternativeEntries own name) = .ok choices' ∧
      (choices'.isSome && !kind.isScalar) = false ∧
      ∀ a, kind.toNode a choices' = kind.toNode a choices := by
  have enum : ∀ keyword, keywordFor name = some keyword →
      (alternativeEntries own name).lookup "enum" =
        if keyword = "enum" then own.lookup "enum" else none := by
    intro keyword hk
    rw [lookup_alternativeEntries, if_neg (by decide), hk]
    simp only [Option.some.injEq]
  unfold choicesOf
  unfold kindOfName at h
  split at h
  · next hname =>
    obtain ⟨ps, -, rfl⟩ := except_map_ok.mp h
    rw [enum "properties" (if_pos hname), if_neg (by decide)]
    exact ⟨none, rfl, rfl, fun _ => rfl⟩
  · next hobject =>
    split at h
    · next hname =>
      obtain ⟨n, -, rfl⟩ := except_map_ok.mp h
      rw [enum "items" ((if_neg hobject).trans (if_pos hname)), if_neg (by decide)]
      exact ⟨none, rfl, rfl, fun _ => rfl⟩
    · next harray =>
      split at h
      · next type htype =>
        cases h
        have hk : keywordFor name = some "enum" := by
          rw [keywordFor, if_neg hobject, if_neg harray, htype]
          rfl
        rw [enum "enum" hk, if_pos rfl]
        refine ⟨choices, ?_, ?_, fun _ => rfl⟩
        · unfold choicesOf at hchoices
          split at hchoices <;> first | exact hchoices | cases hchoices
        · cases choices <;> rfl
      · cases h

/-- The alternative that the builder makes of a name is the node of the mapping that the
name stands for. -/
theorem buildNode_alternativeOf (path' : ParamPath) (hchoices : choicesOf path own = .ok choices)
    {n : Node} :
    alternativeOfName path here (declaredProperties path here own) (declaredItems path here own)
        choices name = .ok n ↔
      buildNode path' here (alternativeOf own name) = .ok n := by
  have bare : SameAttributes [] (alternativeEntries own name) := by
    intro keyword hk
    simp only [shapeKeywords, List.mem_cons, List.not_mem_nil, or_false, not_or] at hk
    rw [lookup_alternativeEntries, if_neg hk.1, if_neg]
    · rfl
    · unfold keywordFor
      grind
  have noUnion : (alternativeEntries own name).lookup "oneOf" = none := by
    rw [lookup_alternativeEntries, if_neg (by decide), if_neg]
    unfold keywordFor
    grind
  have type : (alternativeEntries own name).lookup "type" = some (.string name) := by
    rw [lookup_alternativeEntries, if_pos rfl]
  rw [alternativeOf, buildNode_bare bare noUnion type]
  constructor
  · intro h
    obtain ⟨kind, hkind, h⟩ := except_bind_ok.mp h
    obtain rfl := except_pure_ok.mp h
    have hkind' := (kindOfName_alternative path' path).mpr hkind
    obtain ⟨choices', hchoices', fine, same⟩ := choicesOf_alternative path' hchoices hkind
    exact ⟨choices', kind, hchoices', hkind', fine, (same _).symm⟩
  · rintro ⟨choices', kind, hchoices', hkind', fine, rfl⟩
    have hkind := (kindOfName_alternative path' path).mp hkind'
    obtain ⟨_, hsame, -, same⟩ := choicesOf_alternative path' hchoices hkind
    rw [hchoices'] at hsame
    cases hsame
    rw [same]
    exact except_bind_ok.mpr ⟨kind, hkind, rfl⟩

/-! ## All of them -/

theorem buildAlternatives_alternativesOf (hchoices : choicesOf path own = .ok choices)
    {place : ParamPath} {i : Nat} {ns : List Node} :
    names.mapM (alternativeOfName path here (declaredProperties path here own)
        (declaredItems path here own) choices) = .ok ns ↔
      buildAlternatives place here i (names.map (alternativeOf own)) = .ok ns := by
  induction names generalizing i ns with
  | nil =>
      rw [List.mapM_nil, List.map_nil, buildAlternatives]
      rfl
  | cons name rest ih =>
      rw [List.mapM_cons, List.map_cons, buildAlternatives]
      simp only [except_bind_ok, buildNode_alternativeOf (place.index i) hchoices,
        ih (i := i + 1)]

theorem typeNames_strings (names : List String) : typeNames path (names.map .string) = .ok names := by
  induction names with
  | nil => rfl
  | cons name rest ih =>
      unfold typeNames at ih ⊢
      rw [List.map_cons, List.mapM_cons, ih]
      rfl

theorem ListsNames.choicesOf_ok (lists : ListsNames own names) :
    ∃ choices, ∀ path, choicesOf path own = .ok choices := by
  rcases lists.enum with henum | ⟨v, vs, henum⟩
  · exact ⟨none, fun path => by rw [choicesOf, henum]⟩
  · exact ⟨some (v :: vs), fun path => by rw [choicesOf, henum]⟩

/-- The shape of a list of names. -/
theorem ListsNames.kindOf (lists : ListsNames own names) (path : ParamPath) (here : Inherited)
    (choices : Option (List Value)) :
    kindOf path here own choices = do
      let alternatives ← names.mapM (alternativeOfName path here (declaredProperties path here own)
        (declaredItems path here own) choices)
      return (.union alternatives, none) := by
  have several := lists.several
  rw [Schema.kindOf, lists.noUnion, kindOfType]
  simp only [lists.type, typeNames_strings]
  rcases names with _ | ⟨first, _ | ⟨second, more⟩⟩
  · simp at several
  · simp at several
  · rfl

/-- The shape of the alternatives that the names stand for. -/
theorem SpellsOut.kindOf (spells : SpellsOut own own' names) (several : 2 ≤ names.length)
    (path : ParamPath) (here : Inherited) :
    kindOf path here own' none = do
      let alternatives ← buildAlternatives (path.key "oneOf") here 0 (names.map (alternativeOf own))
      return (.union alternatives, none) := by
  rw [Schema.kindOf, spells.oneOf]
  cases names with
  | nil => simp at several
  | cons first more => rfl

/-- **Type names and alternatives give one node.** -/
theorem buildNode_spelledOut (lists : ListsNames own names) (spells : SpellsOut own own' names)
    {n : Node} :
    buildNode path inherited (.object own) = .ok n ↔
      buildNode path' inherited (.object own') = .ok n := by
  obtain ⟨choices, hchoices⟩ := lists.choicesOf_ok
  have noChoices : choicesOf path' own' = .ok none := by
    rw [choicesOf, spells.dropped "enum" (by decide)]
  have kept : SameAttributes own' own := fun keyword hk => (spells.kept keyword hk).symm
  rw [buildNode_object, buildNode_object, hchoices, noChoices]
  constructor
  · intro h
    obtain ⟨here, hhere, h⟩ := except_bind_ok.mp h
    obtain ⟨_, ⟨⟩, h⟩ := except_bind_ok.mp h
    obtain ⟨⟨kind, _⟩, hkind, h⟩ := except_bind_ok.mp h
    obtain ⟨a, ha, h⟩ := except_bind_ok.mp h
    rw [lists.kindOf] at hkind
    obtain ⟨ns, hns, hkind⟩ := except_bind_ok.mp hkind
    refine except_bind_ok.mpr ⟨here, spells.kept.settings hhere, except_bind_ok.mpr ⟨none, rfl, ?_⟩⟩
    refine except_bind_ok.mpr ⟨(kind, _), ?_, except_bind_ok.mpr ⟨a, spells.kept.attributesOf ha, h⟩⟩
    rw [spells.kindOf lists.several]
    exact except_bind_ok.mpr ⟨ns, (buildAlternatives_alternativesOf (hchoices path)).mp hns, hkind⟩
  · intro h
    obtain ⟨here, hhere, h⟩ := except_bind_ok.mp h
    obtain ⟨_, ⟨⟩, h⟩ := except_bind_ok.mp h
    obtain ⟨⟨kind, _⟩, hkind, h⟩ := except_bind_ok.mp h
    obtain ⟨a, ha, h⟩ := except_bind_ok.mp h
    rw [spells.kindOf lists.several] at hkind
    obtain ⟨ns, hns, hkind⟩ := except_bind_ok.mp hkind
    refine except_bind_ok.mpr ⟨here, kept.settings hhere, except_bind_ok.mpr ⟨choices, rfl, ?_⟩⟩
    refine except_bind_ok.mpr ⟨(kind, _), ?_, except_bind_ok.mpr ⟨a, kept.attributesOf ha, h⟩⟩
    rw [lists.kindOf]
    exact except_bind_ok.mpr ⟨ns, (buildAlternatives_alternativesOf (hchoices path)).mpr hns, hkind⟩

/-! ## Whole documents -/

variable {listed : Bool} {document document' : Value} {s : Schema}

/-- What is not about the shape stays where it is. -/
theorem get?_respelled (h : Rewritten Respells listed document document') :
    ∀ keyword, keyword ∉ shapeKeywords → document'.get? keyword = document.get? keyword := by
  refine h.induction (motive := fun _ v w => ∀ keyword, keyword ∉ shapeKeywords →
    w.get? keyword = v.get? keyword) ?_ ?_ ?_ ?_
  · intro _ v keyword _
    rfl
  · intro _ u v w first second keyword hk
    exact (second keyword hk).trans (first keyword hk)
  · rintro _ own own' ⟨names, -, spells⟩ keyword hk
    exact spells.kept keyword hk
  · intro _ own own' parts keyword hk
    exact SameButParts.attributes (SameParts.sameButParts parts) keyword hk

theorem ofValue_of_builds (builds : Builds Eq document document')
    (kept : ∀ keyword, keyword ∉ shapeKeywords → document'.get? keyword = document.get? keyword)
    (h : ofValue document = .ok s) : ofValue document' = .ok s := by
  obtain ⟨own, rfl⟩ := object_of_buildNode (ofValue_ok h).1
  obtain ⟨hroot, hobject, hflags, htitle, hdescription⟩ := ofValue_object_iff.mp h
  obtain ⟨root, hroot', rfl⟩ := builds .root .root {} _ hroot
  obtain ⟨own', rfl⟩ := object_of_buildNode hroot'
  have same : SameAttributes own own' := kept
  exact ofValue_object_iff.mpr ⟨hroot', hobject, hflags, same.textOf (by decide) htitle,
    same.textOf (by decide) hdescription⟩

/-- **Lists of type names and `oneOf` share one meaning.** Where any lists of names of a
document are spelled out as alternatives, the one document is accepted exactly if the other
is, and both describe the same schema: the same tree with the same settings, the same flags. -/
theorem ofValue_respelled (h : Rewritten Respells false document document') (s : Schema) :
    ofValue document = .ok s ↔ ofValue document' = .ok s := by
  have refl : ∀ listed : Bool, ∀ n : Node, n = n := fun _ _ => rfl
  have trans : ∀ listed : Bool, ∀ k m n : Node, k = m → m = n → k = n := fun _ _ _ _ => Eq.trans
  have parts : ∀ listed : Bool, ∀ n n', NodeParts Eq Eq n n' → n = n' := fun _ _ _ => NodeParts.eq
  have kept := get?_respelled h
  constructor
  · refine ofValue_of_builds (h.builds (N := fun _ => Eq) refl trans parts ?_) kept
    rintro listed own own' ⟨names, lists, spells⟩ path path' inherited n hn
    exact ⟨n, (buildNode_spelledOut lists spells).mp hn, rfl⟩
  · refine ofValue_of_builds (h.flip.builds (N := fun _ => Eq) refl trans parts ?_)
      fun keyword hk => (kept keyword hk).symm
    rintro listed own own' ⟨names, lists, spells⟩ path path' inherited n hn
    exact ⟨n, (buildNode_spelledOut lists spells).mpr hn, rfl⟩

/-- A mapping that lists names. -/
def namesEntries (items : Value) : Entries :=
  [("type", .array [.string "array", .string "integer"]), ("items", items),
    ("enum", .array [three]), ("x-simpletag", .bool false)]

/-- The same with the names spelled out. -/
def spelledEntries (items : Value) : Entries :=
  [("x-simpletag", .bool false), ("oneOf", .array [
    .object [("type", .string "array"), ("items", items)],
    .object [("type", .string "integer"), ("enum", .array [three])]])]

/-- The elements are texts or truth values. -/
def namesElements : Entries := [("type", .array [.string "string", .string "boolean"])]

/-- The same with the names spelled out. -/
def spelledElements : Entries :=
  [("oneOf", .array [.object [("type", .string "string")], .object [("type", .string "boolean")]])]

/-- The node of the mapping. -/
def spelledNode : Node :=
  let full : Attributes := { simpleTag := false }
  .union full [.array full (.union full [.scalar full (.typed .string) none,
    .scalar full (.typed .boolean) none]), .scalar full (.typed .integer) (some [three])]

/-- Names are spelled out in a mapping and in the items below it. -/
theorem ofValue_respelled_nested :
    let document := .object [("properties", .object [("x", .object (namesEntries
      (.object namesElements)))])]
    let document' := .object [("properties", .object [("x", .object (spelledEntries
      (.object spelledElements)))])]
    let s : Schema := ⟨none, none, .object {} [("x", spelledNode)], ⟨[.ofNode spelledNode ["x"] "x"]⟩⟩
    Rewritten Respells false document document' ∧ ofValue document = .ok s ∧
      ofValue document' = .ok s := by
  intro document document' s
  have inner : Rewritten Respells false (.object namesElements) (.object spelledElements) := by
    refine .here ⟨["string", "boolean"], ⟨rfl, rfl, by decide, .inl rfl⟩, ?_, by decide, rfl⟩
    intro keyword hk
    simp only [shapeKeywords, List.mem_cons, List.not_mem_nil, or_false, not_or] at hk
    simp [namesElements, spelledElements, List.lookup, beq_false_of_ne, hk]
  have outer : ∀ items, Rewritten Respells false (.object (namesEntries items))
      (.object (spelledEntries items)) := by
    intro items
    refine .here ⟨["array", "integer"], ⟨rfl, rfl, by decide, .inr ⟨three, [], rfl⟩⟩, ?_,
      by simp [spelledEntries, List.lookup], rfl⟩
    intro keyword hk
    simp only [shapeKeywords, List.mem_cons, List.not_mem_nil, or_false, not_or] at hk
    simp [namesEntries, spelledEntries, List.lookup, beq_false_of_ne, hk]
  have elements : Rewritten Respells false (.object (namesEntries (.object namesElements)))
      (.object (namesEntries (.object spelledElements))) :=
    .within (.cons (.same _) (.cons (.items inner) (.cons (.same _) (.cons (.same _) .nil))))
  have respelled : Rewritten Respells false document document' :=
    .within (.cons (.properties (.cons (.mk "x" (elements.trans (outer _))) .nil)) .nil)
  have accepted : ofValue document = .ok s := by cbv
  exact ⟨respelled, accepted, (ofValue_respelled respelled s).mp accepted⟩

end Schema

end ParamTree
