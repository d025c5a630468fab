import ParamTree.Proofs.Run
import ParamTree.Proofs.Tree

/-!
# The walk over a schema

A resolution visits an object property by property. `property` resolves one of
them, `contents` all of an object; `nodeValue` resolves a node from its raw value, be
it a leaf, an element of a sequence or an alternative. `fill_cons`, `shape_eq` and
`resolveInput_eq` say that the resolver does nothing else.

What an object is filled from is `filling`, and what its entry for a property
holds is `stored`, both by property names from the root. `contents_leaf` finds the
step that resolved a leaf in a successful run; `contents_congr` says that two runs
are equal if every leaf takes the same raw value and every object the same keys.
-/

namespace ParamTree.Resolve

open FileM

/-! ## Steps of the walk -/

/-- The properties of an object, resolved against what fills it. -/
def contents (flags : Option FlagInput) (path : ParamPath) (properties : Properties)
    (given : Option Value) : Resolution Entries := do
  let entries ← liftExcept (supplied properties path given)
  fill flags path entries properties

/-- The value of a node from its raw value: shape, then actions and checks. -/
def nodeValue (path : ParamPath) (n : Node) (raw : Raw) : Resolution Value := do
  let shaped ← shape path raw.value n
  finish n.attrs raw.bare path shaped

/-- Shapes a value to a node, null like any other. -/
def shapeGiven (path : ParamPath) (v : Value) : Node → Resolution Value
  | .object _ properties => do return .object (← contents none path properties (some v))
  | .array a items => do
    let elements ← liftExcept (elementsOf a ("[" ++ items.typeSummary ++ "]") path v)
    return .array (← eachElement (fun p e => nodeValue p items { value := e }) path 0 elements)
  | .union a alternatives =>
    shapeFirst a.makesList path v (alternatives.map Node.typeSummary) alternatives
  | .scalar _ type choices => liftExcept (shapeScalar type choices path v)

/-- The value of one property, from the config's entry for it. -/
def property (flags : Option FlagInput) (here : ParamPath) (config : Option Value) :
    Node → Resolution Value
  | .object a properties => do
    let fields ← contents flags here properties (subtree a config)
    finish a false here (.object fields)
  | leaf => do
    let raw ← liftExcept (pick flags leaf config here)
    nodeValue here leaf raw

/-- What a scalar makes of a value of its type: the literal that the value stands for,
without choices the value itself. -/
def taken (choices : Option (List Value)) (read : Value) : Option Value :=
  match choices with
  | none => some read
  | some allowed => enumMember read allowed

/-- Do no flags reach any node? -/
def Silent (flags : Option FlagInput) : Prop := ∀ names, flags.bind (·.get? names) = none

variable {flags flags' : Option FlagInput} {path here : ParamPath} {entries entries' : Entries}
  {fs fs' : FileSystem}

theorem property_leaf {leaf : Node} (h : leaf.isObject = false) (config : Option Value) :
    property flags here config leaf =
      liftExcept (pick flags leaf config here) >>= nodeValue here leaf := by
  cases leaf with
  | object => cases h
  | array | union | scalar => rfl

/-- What a flag gives is the raw value, whatever the config has. -/
theorem pick_given {input : FlagInput} {given : Given} (h : input.get? here.keys = some given)
    (leaf : Node) (entry : Option Value) :
    pick (some input) leaf entry here = .ok (rawOfGiven leaf given) := by
  unfold pick
  rw [Option.bind_some, h]

theorem property_given {leaf : Node} (hl : leaf.isObject = false) {input : FlagInput} {given : Given}
    (h : input.get? here.keys = some given) (entry : Option Value) :
    property (some input) here entry leaf = nodeValue here leaf (rawOfGiven leaf given) := by
  rw [property_leaf hl, pick_given h]
  rfl

/-- Without a flag the entry of the config is the raw value. -/
theorem property_entry {leaf : Node} (hl : leaf.isObject = false)
    (unflagged : flags.bind (·.get? here.keys) = none) (v : Value) :
    property flags here (some v) leaf = nodeValue here leaf { value := v } := by
  rw [property_leaf hl, pick, unflagged]
  rfl

theorem fill_cons (key : String) (child : Node) (rest : Properties) :
    fill flags path entries ((key, child) :: rest) = do
      let value ← property flags (path.key key) (entries.lookup key) child
      let values ← fill flags path entries rest
      return (key, value) :: values := by
  cases child with
  | object a properties => simp only [fill, property, contents, bind_assoc]
  | array | union | scalar => simp only [fill, property, nodeValue, bind_assoc]

/-- Where null is the default it stays; all else is shaped by the kind of the node. -/
theorem shape_eq (path : ParamPath) (v : Value) (n : Node) :
    shape path v n =
      if v.isNull && n.attrs.admitsNull then pure .null else shapeGiven path v n := by
  cases n with
  | object a properties => simp only [shape, shapeGiven, contents, bind_assoc, Node.attrs]
  | array | union | scalar => rw [shape]; rfl

theorem shape_present {v : Value} (present : v.isNull = false) (path : ParamPath) (n : Node) :
    shape path v n = shapeGiven path v n := by
  rw [shape_eq, present]
  rfl

/-- A sequence is resolved element by element. -/
theorem nodeValue_sequence (path : ParamPath) (a : Attributes) (items : Node) (vs : List Value) :
    nodeValue path (.array a items) { value := .array vs } =
      eachElement (fun p v => nodeValue p items { value := v }) path 0 vs >>= fun ws =>
        finish a false path (.array ws) := by
  rw [nodeValue, shape_present rfl, shapeGiven]
  simp only [elementsOf, liftExcept, pure_bind, bind_assoc, Node.attrs]

theorem shapeFirst_cons (wraps : Bool) (path : ParamPath) (v : Value) (tried : List String)
    (n : Node) (rest : List Node) :
    shapeFirst wraps path v tried (n :: rest) =
      if fits wraps v n then nodeValue path n { value := wrapFor n v }
      else shapeFirst wraps path v tried rest := by
  rw [shapeFirst]
  rfl

theorem shapeScalar_ok {type : Primitive} {choices : Option (List Value)} {v w : Value} :
    shapeScalar type choices path v = .ok w ↔
      ∃ read, type.coerce v = some read ∧ taken choices read = some w := by
  unfold shapeScalar
  cases type.coerce v with
  | none => simp
  | some read =>
      cases choices with
      | none => simp [taken]
      | some allowed => cases found : enumMember read allowed <;> simp [taken, found]

/-- A scalar takes what it can be shaped to. -/
theorem fitsScalar_iff {type : Primitive} {choices : Option (List Value)} {v : Value} :
    fitsScalar type choices v = true ↔
      ∃ w read, type.coerce v = some read ∧ taken choices read = some w := by
  unfold fitsScalar
  cases type.coerce v with
  | none => simp
  | some read =>
      cases choices with
      | none => simp [taken]
      | some allowed => simp [taken, Option.isSome_iff_exists]

theorem resolveInput_eq (s : Schema) (config : Option Value) (input : FlagInput) :
    s.resolveInput config input =
      contents (some input) .root s.root.properties config >>= fun fields =>
        finish s.root.attrs false .root (.object fields) := by
  simp only [Schema.resolveInput, contents, bind_assoc]

/-- A resolution reads its tokens, none at all like an empty list, and then walks. -/
theorem resolve_eq (s : Schema) (config : Option Value) (tokens : Option (List String)) :
    s.resolve config tokens =
      liftExcept (FlagInput.read s.flags (tokens.getD [])) >>= s.resolveInput config := by
  cases tokens <;> rfl

/-! ## What a run of the walk keeps -/

section Keeps

variable {R : FileSystem → FileSystem → Prop}

theorem keeps_eachElement (hR : RunRelation R) {f : ParamPath → Value → Resolution Value}
    (hf : ∀ p v, Keeps R (f p v)) (i : Nat) (vs : List Value) :
    Keeps R (eachElement f path i vs) := by
  induction vs generalizing i with
  | nil => exact keeps_pure hR []
  | cons v vs ih =>
      exact (hf _ v).bind hR fun w => (ih (i + 1)).bind hR fun ws => keeps_pure hR _

theorem keeps_fill (hR : RunRelation R) {properties : Properties}
    (h : ∀ p ∈ properties, ∀ here config, Keeps R (property flags here config p.2)) :
    Keeps R (fill flags path entries properties) := by
  induction properties with
  | nil => exact keeps_pure hR []
  | cons p rest ih =>
      rw [fill_cons]
      exact (h p List.mem_cons_self _ _).bind hR fun value =>
        (ih fun q hq => h q (List.mem_cons_of_mem _ hq)).bind hR fun values => keeps_pure hR _

theorem keeps_contents (hR : RunRelation R) {properties : Properties} {given : Option Value}
    (h : ∀ p ∈ properties, ∀ here config, Keeps R (property flags here config p.2)) :
    Keeps R (contents flags path properties given) :=
  (keeps_liftExcept hR _).bind hR fun _ => keeps_fill hR h

theorem keeps_nodeValue (hR : RunRelation R) {n : Node} {raw : Raw}
    (h : ∀ action ∈ n.attrs.actions, ∀ v, Keeps R (action.apply v))
    (hs : ∀ path v, Keeps R (shape path v n)) : Keeps R (nodeValue here n raw) :=
  (hs here raw.value).bind hR fun shaped => keeps_finish hR h shaped

theorem keeps_shapeFirst {wraps : Bool} {v : Value} {tried : List String}
    {alternatives : List Node}
    (h : ∀ n ∈ alternatives, ∀ raw, Keeps R (nodeValue path n raw)) :
    Keeps R (shapeFirst wraps path v tried alternatives) := by
  induction alternatives with
  | nil => exact keeps_throw _
  | cons n rest ih =>
      rw [shapeFirst_cons]
      split
      · exact h n List.mem_cons_self _
      · exact ih fun m hm => h m (List.mem_cons_of_mem _ hm)

theorem keeps_shape (hR : RunRelation R) {v : Value} {n : Node}
    (h : Keeps R (shapeGiven path v n)) : Keeps R (shape path v n) := by
  rw [shape_eq]
  split
  · exact keeps_pure hR _
  · exact h

theorem keeps_property (hR : RunRelation R) {n : Node} {config : Option Value}
    (h : ∀ action ∈ n.attrs.actions, ∀ v, Keeps R (action.apply v))
    (hs : ∀ path v, Keeps R (shape path v n))
    (hp : ∀ p ∈ n.properties, ∀ here config, Keeps R (property flags here config p.2)) :
    Keeps R (property flags here config n) := by
  rcases n.leaf_or_object with hleaf | ⟨a, properties, rfl⟩
  · rw [property_leaf hleaf]
    exact (keeps_liftExcept hR _).bind hR fun raw => keeps_nodeValue hR h hs
  · exact (keeps_contents hR hp).bind hR fun fields => keeps_finish hR h _

/-- What every action below a node keeps, the resolution of the node keeps. -/
theorem keeps_node (hR : RunRelation R) {n : Node}
    (h : n.Every fun m => ∀ action ∈ m.attrs.actions, ∀ v, Keeps R (action.apply v)) :
    (∀ path v, Keeps R (shape path v n)) ∧
      ∀ flags here config, Keeps R (property flags here config n) := by
  -- shaping runs the actions below the node; its own run when the node is finished
  induction n using Node.treeInduction with
  | object a properties ih =>
      have below : ∀ p ∈ properties, ∀ flags here config,
          Keeps R (property flags here config p.2) := fun p hp => (ih p hp (h.property hp)).2
      have hs : ∀ path v, Keeps R (shape path v (.object a properties)) := fun path v =>
        keeps_shape hR ((keeps_contents hR fun p hp => below p hp none).bind hR fun _ =>
          keeps_pure hR _)
      exact ⟨hs, fun flags here config =>
        keeps_property hR h.self hs fun p hp => below p hp flags⟩
  | array a items ih =>
      have hs : ∀ path v, Keeps R (shape path v (.array a items)) := by
        intro path v
        refine keeps_shape hR ((keeps_liftExcept hR _).bind hR fun elements => ?_)
        refine (keeps_eachElement hR (fun p e => ?_) 0 elements).bind hR fun _ => keeps_pure hR _
        exact keeps_nodeValue hR h.items.self (ih h.items).1
      exact ⟨hs, fun flags here config => keeps_property hR h.self hs (by simp [Node.properties])⟩
  | union a alternatives ih =>
      have hs : ∀ path v, Keeps R (shape path v (.union a alternatives)) := by
        intro path v
        refine keeps_shape hR (keeps_shapeFirst fun n hn raw => ?_)
        exact keeps_nodeValue hR (h.alternative hn).self (ih n hn (h.alternative hn)).1
      exact ⟨hs, fun flags here config => keeps_property hR h.self hs (by simp [Node.properties])⟩
  | scalar a type choices =>
      have hs : ∀ path v, Keeps R (shape path v (.scalar a type choices)) := fun path v =>
        keeps_shape hR (keeps_liftExcept hR _)
      exact ⟨hs, fun flags here config => keeps_property hR h.self hs (by simp [Node.properties])⟩

end Keeps

/-! ## What fills an object -/

/-- What fills the object that property names lead to, where `given` fills the node
itself: the entry of the enclosing object where that is present and not null, else
the object's own default. -/
def filling (n : Node) (given : Option Value) : List String → Option Value
  | [] => given
  | name :: names =>
    match n.property? name with
    | some child => filling child (subtree child.attrs (given.bind (·.get? name))) names
    | none => none

/-- The entry for a property in what fills the object that declares it. -/
def stored (n : Node) (given : Option Value) (names : List String) (key : String) : Option Value :=
  (filling n given names).bind (·.get? key)

theorem filling_cons {n child : Node} {name : String} (h : n.property? name = some child)
    (given : Option Value) (names : List String) :
    filling n given (name :: names) =
      filling child (subtree child.attrs (given.bind (·.get? name))) names := by
  rw [filling, h]

theorem stored_cons {n child : Node} {name : String} (h : n.property? name = some child)
    (given : Option Value) (names : List String) (key : String) :
    stored n given (name :: names) key =
      stored child (subtree child.attrs (given.bind (·.get? name))) names key := by
  rw [stored, stored, filling_cons h]

/-- The entries taken from what fills an object are what is found in it. -/
theorem lookup_supplied {properties : Properties} {given : Option Value}
    (h : supplied properties path given = .ok entries) (key : String) :
    entries.lookup key = given.bind (·.get? key) := by
  unfold supplied at h
  split at h
  · cases h
    rfl
  · split at h
    · cases h
    · cases h
      rfl
  · cases h

/-- A value fills an object exactly if it is a mapping with declared keys alone. -/
theorem supplied_ok {properties : Properties} {v : Value} :
    supplied properties path (some v) = .ok entries ↔
      v = .object entries ∧ ∀ key ∈ entries.map Prod.fst, key ∈ properties.map Prod.fst := by
  cases v with
  | object given =>
      rw [supplied]
      split
      · next key value hfind =>
        simp only [reduceCtorEq, Value.object.injEq, false_iff, not_and]
        rintro rfl h
        have hmem := h key (List.mem_map_of_mem (List.mem_of_find?_eq_some hfind))
        have hnone := List.find?_some hfind
        rw [← Option.not_isSome, lookup_isSome_iff_mem.mpr hmem] at hnone
        cases hnone
      · next hfind =>
        simp only [Except.ok.injEq, Value.object.injEq]
        constructor
        · rintro rfl
          refine ⟨rfl, fun key hkey => ?_⟩
          obtain ⟨entry, hentry, rfl⟩ := List.mem_map.mp hkey
          have hsome := List.find?_eq_none.mp hfind entry hentry
          rw [← lookup_isSome_iff_mem, ← Option.not_isNone]
          simpa using hsome
        · exact fun h => h.1
  | null | bool | number | string | array => simp [supplied]

/-! ## Successful runs of the walk -/

theorem contents_ok {properties : Properties} {given : Option Value} {fields : Entries} :
    (contents flags path properties given).run fs = .ok fields fs' ↔
      ∃ entries, supplied properties path given = .ok entries ∧
        (fill flags path entries properties).run fs = .ok fields fs' := by
  simp only [contents, run_bind_ok, run_liftExcept_ok]
  constructor
  · rintro ⟨entries, fs₁, ⟨hsup, rfl⟩, h⟩
    exact ⟨entries, hsup, h⟩
  · rintro ⟨entries, hsup, h⟩
    exact ⟨entries, fs, ⟨hsup, rfl⟩, h⟩

theorem fill_cons_ok {key : String} {child : Node} {rest : Properties} {fields : Entries} :
    (fill flags path entries ((key, child) :: rest)).run fs = .ok fields fs' ↔
      ∃ value fs₁ values,
        (property flags (path.key key) (entries.lookup key) child).run fs = .ok value fs₁ ∧
        (fill flags path entries rest).run fs₁ = .ok values fs' ∧
        fields = (key, value) :: values := by
  simp only [fill_cons, run_bind_ok, run_pure_ok]
  constructor
  · rintro ⟨value, fs₁, h₁, values, fs₂, h₂, rfl, rfl⟩
    exact ⟨value, fs₁, values, h₁, h₂, rfl⟩
  · rintro ⟨value, fs₁, values, h₁, h₂, rfl⟩
    exact ⟨value, fs₁, h₁, values, fs', h₂, rfl, rfl⟩

theorem fill_append_ok {before after : Properties} {fields : Entries} :
    (fill flags path entries (before ++ after)).run fs = .ok fields fs' ↔
      ∃ first fs₁ rest, (fill flags path entries before).run fs = .ok first fs₁ ∧
        (fill flags path entries after).run fs₁ = .ok rest fs' ∧ fields = first ++ rest := by
  induction before generalizing fs fields with
  | nil => simp [fill, and_assoc]
  | cons p before ih =>
      obtain ⟨k, child⟩ := p
      simp only [List.cons_append, fill_cons_ok, ih]
      constructor
      · rintro ⟨value, fs₁, values, hvalue, ⟨first, fs₂, rest, hfirst, hrest, rfl⟩, rfl⟩
        exact ⟨_, fs₂, rest, ⟨value, fs₁, first, hvalue, hfirst, rfl⟩, hrest, rfl⟩
      · rintro ⟨_, fs₂, rest, ⟨value, fs₁, first, hvalue, hfirst, rfl⟩, hrest, rfl⟩
        exact ⟨value, fs₁, _, hvalue, ⟨first, fs₂, rest, hfirst, hrest, rfl⟩, rfl⟩

/-- The keys of a filled object are the declared ones, in declaration order. -/
theorem fill_keys {properties : Properties} {fields : Entries}
    (run : (fill flags path entries properties).run fs = .ok fields fs') :
    fields.map Prod.fst = properties.map Prod.fst := by
  induction properties generalizing fs fields with
  | nil =>
      rw [fill] at run
      rw [(run_pure_ok.mp run).1]
      rfl
  | cons p rest ih =>
      obtain ⟨value, fs₁, values, -, hrest, rfl⟩ := fill_cons_ok.mp run
      simp [ih hrest]

/-- Each field of a filled object comes from the property at its place. -/
theorem fill_zip {properties : Properties} {fields : Entries}
    (run : (fill flags path entries properties).run fs = .ok fields fs') :
    ∀ p ∈ properties.zip fields, ∃ fs₁ fs₂,
      (property flags (path.key p.1.1) (entries.lookup p.1.1) p.1.2).run fs₁ = .ok p.2.2 fs₂ := by
  induction properties generalizing fs fields with
  | nil => simp
  | cons q rest ih =>
      obtain ⟨value, fs₁, values, hvalue, hrest, rfl⟩ := fill_cons_ok.mp run
      intro p hp
      rcases List.mem_cons.mp hp with rfl | hp
      · exact ⟨fs, fs₁, hvalue⟩
      · exact ih hrest p hp

/-- Each element of a resolved sequence comes from an element of the raw one. -/
theorem eachElement_mem {f : ParamPath → Value → Resolution Value} {i : Nat} {vs ws : List Value}
    (run : (eachElement f path i vs).run fs = .ok ws fs') {w : Value} (hw : w ∈ ws) :
    ∃ p v fs₁ fs₂, v ∈ vs ∧ (f p v).run fs₁ = .ok w fs₂ := by
  induction vs generalizing i fs ws with
  | nil =>
      rw [eachElement] at run
      rw [(run_pure_ok.mp run).1] at hw
      cases hw
  | cons v vs ih =>
      obtain ⟨u, fs₁, hu, run⟩ := run_bind_ok.mp run
      obtain ⟨us, fs₂, hus, run⟩ := run_bind_ok.mp run
      obtain ⟨rfl, rfl⟩ := run_pure_ok.mp run
      rcases List.mem_cons.mp hw with rfl | hw
      · exact ⟨_, v, fs, fs₁, List.mem_cons_self, hu⟩
      · obtain ⟨p, x, fs₃, fs₄, hx, hrun⟩ := ih hus hw
        exact ⟨p, x, fs₃, fs₄, List.mem_cons_of_mem _ hx, hrun⟩

/-- Shaping succeeds where null is the default and given, or by the kind of the node. -/
theorem shape_run_ok {n : Node} {v w : Value} :
    (shape path v n).run fs = .ok w fs' ↔
      (v = .null ∧ n.attrs.admitsNull = true ∧ w = .null ∧ fs' = fs) ∨
        (v.isNull && n.attrs.admitsNull) = false ∧ (shapeGiven path v n).run fs = .ok w fs' := by
  rw [shape_eq]
  cases h : v.isNull && n.attrs.admitsNull with
  | true =>
      obtain ⟨hv, hnull⟩ := Bool.and_eq_true_iff.mp h
      rw [if_pos rfl, run_pure_ok]
      simp [hnull, Value.isNull_iff.mp hv]
  | false =>
      have hnot : ¬(v = .null ∧ n.attrs.admitsNull = true) := by
        rintro ⟨rfl, hnull⟩
        simp [Value.isNull, hnull] at h
      rw [if_neg Bool.false_ne_true]
      constructor
      · exact fun run => .inr ⟨rfl, run⟩
      · rintro (⟨hv, hnull, -, -⟩ | ⟨-, run⟩)
        · exact absurd ⟨hv, hnull⟩ hnot
        · exact run

/-- Alternatives before one that the value fits do not count if it fits none of them. -/
theorem shapeFirst_append {wraps : Bool} {v : Value} {tried : List String} {before : List Node}
    (hbefore : ∀ m ∈ before, fits wraps v m = false) {n : Node} (hn : fits wraps v n = true)
    (after : List Node) :
    shapeFirst wraps path v tried (before ++ n :: after) =
      nodeValue path n { value := wrapFor n v } := by
  induction before with
  | nil => rw [List.nil_append, shapeFirst_cons, if_pos hn]
  | cons m rest ih =>
      have hm : fits wraps v m = false := hbefore m List.mem_cons_self
      rw [List.cons_append, shapeFirst_cons, if_neg (by simp [hm])]
      exact ih fun k hk => hbefore k (List.mem_cons_of_mem _ hk)

/-- A union resolves its first alternative that the value fits. -/
theorem shapeFirst_ok {wraps : Bool} {v w : Value} {tried : List String} {alternatives : List Node}
    (run : (shapeFirst wraps path v tried alternatives).run fs = .ok w fs') :
    ∃ before n after, alternatives = before ++ n :: after ∧
      (∀ m ∈ before, fits wraps v m = false) ∧ fits wraps v n = true ∧
      (nodeValue path n { value := wrapFor n v }).run fs = .ok w fs' := by
  induction alternatives with
  | nil => exact absurd run run_throw_ok
  | cons n rest ih =>
      rw [shapeFirst_cons] at run
      split at run
      · next hfits => exact ⟨[], n, rest, rfl, by simp, hfits, run⟩
      · next hfits =>
        obtain ⟨before, m, after, rfl, hbefore, hm⟩ := ih run
        refine ⟨n :: before, m, after, rfl, ?_, hm⟩
        intro k hk
        rcases List.mem_cons.mp hk with rfl | hk
        · simpa using hfits
        · exact hbefore k hk

/-- The step that resolved one property of a filled object. -/
theorem fill_at {R : FileSystem → FileSystem → Prop} (hR : RunRelation R)
    {properties : Properties} {fields : Entries} {key : String} {child : Node}
    (keeps : ∀ p ∈ properties, ∀ here config, Keeps R (property flags here config p.2))
    (run : (fill flags path entries properties).run fs = .ok fields fs')
    (hc : (key, child) ∈ properties) :
    ∃ value fs₁ fs₂, (key, value) ∈ fields ∧ R fs fs₁ ∧ R fs₂ fs' ∧
      (property flags (path.key key) (entries.lookup key) child).run fs₁ = .ok value fs₂ := by
  induction properties generalizing fs fields with
  | nil => cases hc
  | cons p rest ih =>
      have keepsRest := fun q hq => keeps q (List.mem_cons_of_mem p hq)
      obtain ⟨value, fs₁, values, hvalue, hrest, rfl⟩ := fill_cons_ok.mp run
      rcases List.mem_cons.mp hc with rfl | hc
      · exact ⟨value, fs, fs₁, List.mem_cons_self, hR.refl fs,
          keeps_fill hR keepsRest _ _ _ hrest, hvalue⟩
      · obtain ⟨w, fs₂, fs₃, hw, h₁, h₂, hrun⟩ := ih keepsRest hrest hc
        have hstep := keeps p List.mem_cons_self _ _ _ _ _ hvalue
        exact ⟨w, fs₂, fs₃, List.mem_cons_of_mem _ hw, hR.trans hstep h₁, h₂, hrun⟩

/-- A walk that succeeds has resolved every property, however deep it stands. -/
theorem contents_visited {n m : Node} {given : Option Value} {fields : Entries}
    {names : List String} {key : String}
    (run : (contents flags path n.properties given).run fs = .ok fields fs')
    (hd : n.descend (names ++ [key]) = some m) :
    ∃ w fs₁ fs₂, (property flags (path.below (names ++ [key])) (stored n given names key) m).run
      fs₁ = .ok w fs₂ := by
  -- nothing is asked of the file system, so any relation will do
  have any : RunRelation fun _ _ => True := ⟨fun _ => trivial, fun _ _ => trivial⟩
  induction names generalizing n given fields fs fs' path with
  | nil =>
      obtain ⟨child, hchild, hrest⟩ := Node.descend_cons.mp hd
      cases hrest
      obtain ⟨a, properties, rfl, hmem⟩ := Node.isObject_of_property? hchild
      obtain ⟨entries, hsup, hfill⟩ := contents_ok.mp run
      obtain ⟨w, fs₁, fs₂, -, -, -, hprop⟩ := fill_at any (fun _ _ _ _ _ _ _ _ => trivial) hfill hmem
      rw [lookup_supplied hsup] at hprop
      exact ⟨w, fs₁, fs₂, hprop⟩
  | cons name names ih =>
      rw [List.cons_append] at hd ⊢
      obtain ⟨child, hchild, hrest⟩ := Node.descend_cons.mp hd
      obtain ⟨a, properties, rfl, hmem⟩ := Node.isObject_of_property? hchild
      obtain ⟨entries, hsup, hfill⟩ := contents_ok.mp run
      obtain ⟨w, fs₁, fs₂, -, -, -, hprop⟩ := fill_at any (fun _ _ _ _ _ _ _ _ => trivial) hfill hmem
      obtain ⟨b, below, rfl⟩ := Node.object_of_descend (by simp) hrest
      obtain ⟨inner, fs₃, hinner, -⟩ := run_bind_ok.mp hprop
      rw [lookup_supplied hsup] at hinner
      rw [stored_cons hchild, ← ParamPath.below_key]
      exact ih hinner hrest

/-- A resolution that succeeds has read its tokens and resolved every property of the
tree. -/
theorem resolve_visited {s : Schema} {config : Option Value} {tokens : Option (List String)}
    {v : Value} (run : (s.resolve config tokens).run fs = .ok v fs') :
    ∃ input, FlagInput.read s.flags (tokens.getD []) = .ok input ∧
      ∀ names key m, s.root.descend (names ++ [key]) = some m → ∃ w fs₁ fs₂,
        (property (some input) (.ofKeys (names ++ [key])) (stored s.root config names key) m).run
          fs₁ = .ok w fs₂ := by
  rw [resolve_eq, run_bind_ok] at run
  obtain ⟨input, fs₀, hinput, run⟩ := run
  obtain ⟨hread, rfl⟩ := run_liftExcept_ok.mp hinput
  rw [resolveInput_eq, run_bind_ok] at run
  obtain ⟨fields, fs₁, hcontents, -⟩ := run
  exact ⟨input, hread, fun names key m hd => contents_visited hcontents hd⟩

/-- A resolution fails if some property of the tree cannot be resolved, whatever the config
has for it. -/
theorem resolve_refused {s : Schema} {tokens : Option (List String)} {names : List String}
    (hne : names ≠ []) {m : Node} (hd : s.root.descend names = some m)
    (refuses : ∀ input, FlagInput.read s.flags (tokens.getD []) = .ok input → ∀ entry fs w fs',
      (property (some input) (.ofKeys names) entry m).run fs ≠ .ok w fs')
    (config : Option Value) (fs : FileSystem) :
    ∃ e fs', (s.resolve config tokens).run fs = .error e fs' := by
  cases run : (s.resolve config tokens).run fs with
  | error e fs' => exact ⟨e, fs', rfl⟩
  | ok v fs' =>
      exfalso
      obtain ⟨input, hread, visited⟩ := resolve_visited run
      rw [← List.dropLast_concat_getLast hne] at hd refuses
      obtain ⟨w, fs₁, fs₂, hvalue⟩ := visited _ _ m hd
      exact refuses input hread _ fs₁ w fs₂ hvalue

/-- Does a value fill an object with these properties, and if not, why not? -/
def admission (properties : Properties) (path : ParamPath) (given : Option Value) :
    Except ResolveError Unit := (supplied properties path given).map fun _ => ()

theorem fill_congr {properties : Properties}
    (h : ∀ p ∈ properties, property flags (path.key p.1) (entries.lookup p.1) p.2 =
      property flags' (path.key p.1) (entries'.lookup p.1) p.2) :
    fill flags path entries properties = fill flags' path entries' properties := by
  induction properties with
  | nil => rfl
  | cons p rest ih =>
      rw [fill_cons, fill_cons, h p List.mem_cons_self,
        ih fun q hq => h q (List.mem_cons_of_mem _ hq)]

theorem contents_congr_of_fill {properties : Properties} {given given' : Option Value}
    (admitted : admission properties path given = admission properties path given')
    (fills : ∀ entries entries', supplied properties path given = .ok entries →
      supplied properties path given' = .ok entries' →
        fill flags path entries properties = fill flags' path entries' properties) :
    contents flags path properties given = contents flags' path properties given' := by
  unfold admission at admitted
  unfold contents
  cases hsup : supplied properties path given with
  | error e =>
      cases hsup' : supplied properties path given' with
      | error e' =>
          rw [hsup, hsup'] at admitted
          cases admitted
          rfl
      | ok entries' =>
          rw [hsup, hsup'] at admitted
          cases admitted
  | ok entries =>
      cases hsup' : supplied properties path given' with
      | error e' =>
          rw [hsup, hsup'] at admitted
          cases admitted
      | ok entries' => exact fills entries entries' hsup hsup'

/-- Two walks over an object are equal, errors included, if every object on the way is
admitted alike and every leaf is resolved alike. -/
theorem contents_congr_leaves {n : Node} (distinct : n.Every Node.DistinctKeys) (hn : n.isObject)
    {given given' : Option Value}
    (objects : ∀ names m, n.descend names = some m → m.isObject → ∀ path,
      admission m.properties path (filling n given names) =
        admission m.properties path (filling n given' names))
    (leaves : ∀ names key leaf, n.descend (names ++ [key]) = some leaf → leaf.isObject = false →
      property flags (path.below (names ++ [key])) (stored n given names key) leaf =
        property flags' (path.below (names ++ [key])) (stored n given' names key) leaf) :
    contents flags path n.properties given = contents flags' path n.properties given' := by
  induction n using Node.treeInduction generalizing path given given' with
  | object a properties ih =>
      refine contents_congr_of_fill (objects [] _ rfl rfl path) fun entries entries' hsup hsup' => ?_
      refine fill_congr fun p hp => ?_
      obtain ⟨key, child⟩ := p
      have hchild := Node.property?_of_mem distinct.self hp
      show property flags (path.key key) (entries.lookup key) child =
        property flags' (path.key key) (entries'.lookup key) child
      rw [lookup_supplied hsup, lookup_supplied hsup']
      rcases child.leaf_or_object with hleaf | ⟨b, below, rfl⟩
      · have same := leaves [] key child (Node.descend_cons.mpr ⟨_, hchild, rfl⟩) hleaf
        rw [List.nil_append, ← ParamPath.below_key, ParamPath.below_nil] at same
        exact same
      · -- the walk below the child is the walk along paths that start with its key
        have same : contents flags (path.key key) below (subtree b (given.bind (·.get? key))) =
            contents flags' (path.key key) below (subtree b (given'.bind (·.get? key))) := by
          refine ih _ hp (distinct.property hp) rfl ?_ ?_
          · intro names m hd hm here
            have hd := Node.descend_cons.mpr ⟨_, hchild, hd⟩
            have same := objects (key :: names) m hd hm here
            rw [filling_cons hchild, filling_cons hchild] at same
            exact same
          · intro names name leaf hd hl
            have hd : (Node.object a properties).descend ((key :: names) ++ [name]) = some leaf :=
              Node.descend_cons.mpr ⟨_, hchild, hd⟩
            have same := leaves (key :: names) name leaf hd hl
            rw [stored_cons hchild, stored_cons hchild] at same
            rw [ParamPath.below_key]
            exact same
        rw [property, property, same]
  | array | union | scalar => cases hn

/-- Two walks over an object are equal, errors included, if every object on the way is
admitted alike and every leaf takes the same raw value. -/
theorem contents_congr {n : Node} (distinct : n.Every Node.DistinctKeys) (hn : n.isObject)
    {given given' : Option Value}
    (objects : ∀ names m, n.descend names = some m → m.isObject → ∀ path,
      admission m.properties path (filling n given names) =
        admission m.properties path (filling n given' names))
    (leaves : ∀ names key leaf, n.descend (names ++ [key]) = some leaf → leaf.isObject = false →
      pick flags leaf (stored n given names key) (path.below (names ++ [key])) =
        pick flags' leaf (stored n given' names key) (path.below (names ++ [key]))) :
    contents flags path n.properties given = contents flags' path n.properties given' := by
  refine contents_congr_leaves distinct hn objects fun names key leaf hd hl => ?_
  rw [property_leaf hl, property_leaf hl, leaves names key leaf hd hl]

end ParamTree.Resolve
