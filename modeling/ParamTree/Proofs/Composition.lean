import ParamTree.Proofs.ClosedWorld
import ParamTree.Proofs.Overlay
import ParamTree.Proofs.Restriction

/-!
# A resolution is made of its parts

Each property of the root can be resolved by itself: with its own schema, its own entry of
the config and the segments of its own flags (`Schema.part`). `part_eq` says that this is
the step which the walk over all properties takes for it, so a resolution is the walk over
the parts: it joins their values or stops at the first that fails
(`resolve_compositional`).
-/

namespace ParamTree

open FileM Resolve

/-- The mapping with one of its keys. -/
def Value.only (key : String) : Value → Value
  | .object entries => .object (entries.filter (·.1 == key))
  | other => other

/-- One property of the root, resolved by itself. -/
def Schema.part (s : Schema) (config : Option Value) (tokens : List String) (key : String) :
    Resolution Value :=
  (s.only key).resolve (config.map (Value.only key)) (some (s.tokensUnder key tokens))

/-- Does the node make no directory? -/
def Node.MakesNothing (n : Node) : Prop :=
  ∀ action ∈ n.attrs.actions, ∀ mode existOk, action ≠ .makeDir mode existOk

theorem Action.keeps_apply_eq {action : Action} (h : ∀ mode existOk, action ≠ .makeDir mode existOk)
    (v : Value) : Keeps Eq (action.apply v) := by
  have hR := RunRelation.eq
  cases action with
  | makeList => cases v <;> exact keeps_pure hR _
  | makeDict key => cases v <;> exact keeps_pure hR _
  | setTrue | setFalse | setValue => exact keeps_pure hR _
  | makeDir mode existOk => exact absurd rfl (h mode existOk)
  | convert target =>
      rw [Action.apply]
      split
      · exact keeps_pure hR _
      · exact keeps_throw _

namespace Resolve

variable {flags flags' : Option FlagInput} {path here : ParamPath} {entries : Entries}
  {fs fs' : FileSystem} {properties : Properties}

/-! ## The walk as a walk over parts -/

theorem keeps_property_eq {n : Node} (h : n.Every Node.MakesNothing) (config : Option Value) :
    Keeps Eq (property flags here config n) :=
  (keeps_node RunRelation.eq (h.imp fun _ still action ha v =>
    Action.keeps_apply_eq (still action ha) v)).2 flags here config

section Parts

-- every property is resolved by its part, and nothing is made
variable {part : String → Resolution Value}
  (parts : ∀ p ∈ properties, part p.1 =
    property flags (path.key p.1) (entries.lookup p.1) p.2 >>= fun v => pure (.object [(p.1, v)]))
  (still : ∀ p ∈ properties, ∀ here config, Keeps Eq (property flags here config p.2))

include parts still

/-- Filling succeeds with the values of the parts, if all of them succeed. -/
theorem fill_parts_ok {fields : Entries} :
    (fill flags path entries properties).run fs = .ok fields fs' ↔
      fs' = fs ∧ fields.map Prod.fst = properties.map Prod.fst ∧
        ∀ field ∈ fields, (part field.1).run fs = .ok (.object [field]) fs := by
  induction properties generalizing fields with
  | nil =>
      rw [fill, run_pure_ok]
      constructor
      · rintro ⟨rfl, rfl⟩
        simp
      · rintro ⟨rfl, hkeys, -⟩
        exact ⟨List.map_eq_nil_iff.mp hkeys, rfl⟩
  | cons p rest ih =>
      obtain ⟨key, child⟩ := p
      have ih := @ih (fun q hq => parts q (List.mem_cons_of_mem _ hq))
        (fun q hq => still q (List.mem_cons_of_mem _ hq))
      have first := parts _ List.mem_cons_self
      have firstStill := still _ List.mem_cons_self
      rw [fill_cons_ok]
      constructor
      · rintro ⟨value, fs₁, values, hvalue, hrest, rfl⟩
        obtain rfl := firstStill _ _ _ _ _ hvalue
        obtain ⟨rfl, hkeys, hvalues⟩ := ih.mp hrest
        refine ⟨rfl, by simp [hkeys], List.forall_mem_cons.mpr ⟨?_, hvalues⟩⟩
        exact first ▸ run_bind_ok.mpr ⟨value, fs', hvalue, rfl⟩
      · rintro ⟨rfl, hkeys, hfields⟩
        cases fields with
        | nil => cases hkeys
        | cons field values =>
            obtain ⟨hkey, hrest⟩ := List.cons.inj hkeys
            obtain ⟨hfield, hvalues⟩ := List.forall_mem_cons.mp hfields
            obtain ⟨k, value⟩ := field
            obtain rfl : k = key := hkey
            obtain ⟨v, fs₁, hv, hpure⟩ := run_bind_ok.mp (first ▸ hfield)
            obtain ⟨heq, rfl⟩ := run_pure_ok.mp hpure
            cases heq
            exact ⟨value, fs', values, hv, ih.mpr ⟨rfl, hrest, hvalues⟩, rfl⟩

/-- Filling fails as the first part that fails. -/
theorem fill_parts_error {e : ResolveError} :
    (fill flags path entries properties).run fs = .error e fs' ↔
      ∃ before key after, properties.map Prod.fst = before ++ key :: after ∧
        (∀ earlier ∈ before, ∃ v, (part earlier).run fs = .ok v fs) ∧
          (part key).run fs = .error e fs' := by
  induction properties with
  | nil =>
      rw [fill]
      constructor
      · exact fun run => absurd run run_pure_error
      · rintro ⟨before, key, after, hsplit, -⟩
        simp at hsplit
  | cons p rest ih =>
      obtain ⟨key, child⟩ := p
      have ih := @ih (fun q hq => parts q (List.mem_cons_of_mem _ hq))
        (fun q hq => still q (List.mem_cons_of_mem _ hq))
      have first := parts _ List.mem_cons_self
      have firstStill := still _ List.mem_cons_self
      rw [fill_cons]
      -- the first part fails, or it succeeds without a trace and a later one fails
      constructor
      · intro run
        rcases run_bind_error.mp run with hvalue | ⟨value, fs₁, hvalue, run⟩
        · exact ⟨[], key, _, rfl, by simp, first ▸ run_bind_error.mpr (.inl hvalue)⟩
        · obtain rfl := firstStill _ _ _ _ _ hvalue
          rcases run_bind_error.mp run with hrest | ⟨values, fs₁, -, run⟩
          · obtain ⟨before, failed, after, hsplit, hbefore, hfailed⟩ := ih.mp hrest
            refine ⟨key :: before, failed, after, by simp [hsplit], ?_, hfailed⟩
            refine List.forall_mem_cons.mpr ⟨⟨.object [(key, value)], ?_⟩, hbefore⟩
            exact first ▸ run_bind_ok.mpr ⟨value, fs, hvalue, rfl⟩
          · exact absurd run run_pure_error
      · rintro ⟨before, failed, after, hsplit, hbefore, hfailed⟩
        cases before with
        | nil =>
            obtain ⟨rfl, -⟩ := List.cons.inj hsplit
            rcases run_bind_error.mp (first ▸ hfailed) with hvalue | ⟨value, fs₁, -, hpure⟩
            · exact run_bind_error.mpr (.inl hvalue)
            · exact absurd hpure run_pure_error
        | cons earlier before =>
            obtain ⟨rfl, hrest⟩ := List.cons.inj hsplit
            obtain ⟨⟨v, hv⟩, hbefore⟩ := List.forall_mem_cons.mp hbefore
            obtain ⟨value, fs₁, hvalue, hpure⟩ := run_bind_ok.mp (first ▸ hv)
            obtain ⟨-, rfl⟩ := run_pure_ok.mp hpure
            have later := ih.mpr ⟨before, failed, after, hrest, hbefore, hfailed⟩
            exact run_bind_error.mpr (.inr ⟨value, fs, hvalue, run_bind_error.mpr (.inl later)⟩)

end Parts

/-! ## The parts of the root -/

/-- A property takes the same from two inputs that give the same below it. -/
theorem property_congr_input {input input' : FlagInput} {key : String} {child : Node}
    (distinct : child.Every Node.DistinctKeys)
    (same : ∀ names, input'.get? (key :: names) = input.get? (key :: names)) (config : Option Value) :
    property (some input') (ParamPath.root.key key) config child =
      property (some input) (ParamPath.root.key key) config child := by
  have picks : ∀ names leaf value,
      pick (some input') leaf value ((ParamPath.root.key key).below names) =
        pick (some input) leaf value ((ParamPath.root.key key).below names) := by
    intro names leaf value
    unfold pick
    rw [ParamPath.below_key, ParamPath.root_below, ParamPath.keys_ofKeys, Option.bind_some,
      Option.bind_some, same]
  -- a leaf is given something at its own path, an object at the paths below it
  rcases child.leaf_or_object with hleaf | ⟨a, properties, rfl⟩
  · have own := picks [] child config
    rw [ParamPath.below_nil] at own
    rw [property_leaf hleaf, property_leaf hleaf, own]
  · have walk : contents (some input') (ParamPath.root.key key) properties (subtree a config) =
        contents (some input) (ParamPath.root.key key) properties (subtree a config) :=
      contents_congr distinct rfl (fun _ _ _ _ _ => rfl) fun names name leaf _ _ => picks _ leaf _
    rw [property, property]
    exact congrArg (· >>= fun fields => finish a false _ (.object fields)) walk

/-- A mapping fills the properties if it has no first undeclared key. -/
theorem supplied_declared {n : Node} {given : Option Value} (mapping : IsMapping given)
    (declared : ∀ entry ∈ entriesOf given, (n.property? entry.1).isSome) :
    ∃ entries, supplied n.properties path given = .ok entries := by
  cases given with
  | none => exact ⟨[], rfl⟩
  | some v =>
      obtain ⟨entries, rfl⟩ := mapping v rfl
      refine ⟨entries, supplied_ok.mpr ⟨rfl, fun key hkey => ?_⟩⟩
      obtain ⟨entry, hentry, rfl⟩ := List.mem_map.mp hkey
      exact lookup_isSome_iff_mem.mp (declared entry hentry)

theorem supplied_firstUndeclared {n : Node} {given : Option Value} {key : String}
    (h : FirstUndeclared n given key) :
    supplied n.properties path given = .error (.unknownKey (path.key key)) := by
  obtain ⟨before, value, after, rfl, declared, undeclared⟩ := h
  have hfind : (before ++ (key, value) :: after).find?
      (fun entry => (n.properties.lookup entry.1).isNone) = some (key, value) := by
    refine List.find?_eq_some_iff_append.mpr ⟨?_, before, after, rfl, fun entry hentry => ?_⟩
    · rw [show n.properties.lookup key = none from undeclared]
      rfl
    · obtain ⟨child, hchild⟩ := declared entry hentry
      rw [show n.properties.lookup entry.1 = some child from hchild]
      rfl
  rw [supplied, hfind]

end Resolve

namespace Schema

variable {s : Schema} {config : Option Value} {tokens : List String} {input : FlagInput}

theorem get?_only (config : Option Value) (key : String) :
    (config.map (Value.only key)).bind (·.get? key) = config.bind (·.get? key) := by
  cases config with
  | none => rfl
  | some v =>
      cases v with
      | object entries =>
          show (entries.filter (·.1 == key)).lookup key = entries.lookup key
          induction entries with
          | nil => rfl
          | cons entry rest ih =>
              obtain ⟨k, v⟩ := entry
              by_cases hk : k = key
              · simp [hk]
              · have hk' : (key == k) = false := by simp [Ne.symm hk]
                simp [hk, List.lookup_cons, hk', ih]
      | null | bool | number | string | array => rfl

theorem filter_key {properties : Properties} {key : String} {child : Node}
    (distinct : (properties.map Prod.fst).Nodup) (hmem : (key, child) ∈ properties) :
    properties.filter (·.1 == key) = [(key, child)] := by
  obtain ⟨before, after, rfl⟩ := List.append_of_mem hmem
  rw [List.map_append, List.map_cons, List.nodup_middle, List.nodup_cons, ← List.map_append] at distinct
  have others : (before ++ after).filter (·.1 == key) = [] := by
    refine List.filter_eq_nil_iff.mpr fun p hp hkey => distinct.1 ?_
    exact List.mem_map.mpr ⟨p, hp, beq_iff_eq.mp hkey⟩
  rw [List.filter_append, List.append_eq_nil_iff] at others
  rw [List.filter_append, List.filter_cons, if_pos (beq_self_eq_true key), others.1, others.2,
    List.nil_append]

theorem supplied_only (mapping : IsMapping config) (a : Attributes) (key : String) (child : Node) :
    ∃ entries, supplied [(key, child)] .root (config.map (Value.only key)) = .ok entries := by
  refine supplied_declared (n := .object a [(key, child)]) ?_ ?_
  · intro v hv
    obtain ⟨c, rfl, rfl⟩ := Option.map_eq_some_iff.mp hv
    obtain ⟨entries, rfl⟩ := mapping c rfl
    exact ⟨_, rfl⟩
  · cases config with
    | none => nofun
    | some c =>
        obtain ⟨entries, rfl⟩ := mapping c rfl
        intro entry hentry
        have hkey := beq_iff_eq.mp (List.mem_filter.mp hentry).2
        rw [Node.property?, lookup_isSome_iff_mem, hkey]
        exact List.mem_singleton_self key

/-- A part resolves its property as the whole resolution does. -/
theorem part_eq (built : s.Built) (plain : s.root.attrs.actions = [] ∧ s.root.attrs.checks = [])
    (mapping : IsMapping config) (reads : FlagInput.read s.flags tokens = .ok input)
    {key : String} {child : Node} (hchild : (key, child) ∈ s.root.properties) :
    s.part config tokens key =
      property (some input) (ParamPath.root.key key) (config.bind (·.get? key)) child >>= fun v =>
        pure (.object [(key, v)]) := by
  obtain ⟨part, hread, hget⟩ := read_tokensUnder built reads key
  obtain ⟨a, properties, hroot⟩ := built.root_object
  have distinct := built.distinct
  rw [hroot] at distinct hchild plain
  have idle : a.actions = [] ∧ a.checks = [] := plain
  have single : (s.only key).root = .object a [(key, child)] := by
    show s.root.only key = _
    rw [hroot]
    exact congrArg (Node.object a) (filter_key distinct.self hchild)
  obtain ⟨entries, hsup⟩ := supplied_only mapping a key child
  rw [Schema.part, resolve_eq, Option.getD_some, hread]
  show (s.only key).resolveInput _ part = _
  rw [resolveInput_eq, single, Node.properties, contents, hsup]
  show (fill (some part) .root entries [(key, child)] >>= _) = _
  rw [fill_cons, lookup_supplied hsup, get?_only, property_congr_input (distinct.property hchild) hget]
  simp [fill, Node.attrs, finish_idle idle]

/-- A part depends on the property's own entry of the config and its own segments alone. -/
theorem part_congr (built : s.Built)
    (plain : s.root.attrs.actions = [] ∧ s.root.attrs.checks = []) {config' : Option Value}
    {tokens' : List String} {input' : FlagInput} (mapping : IsMapping config)
    (mapping' : IsMapping config') (reads : FlagInput.read s.flags tokens = .ok input)
    (reads' : FlagInput.read s.flags tokens' = .ok input') {key : String} {child : Node}
    (hchild : (key, child) ∈ s.root.properties)
    (entry : config'.bind (·.get? key) = config.bind (·.get? key))
    (segments : s.tokensUnder key tokens' = s.tokensUnder key tokens) :
    s.part config' tokens' key = s.part config tokens key := by
  obtain ⟨part, hread, hget⟩ := read_tokensUnder built reads key
  obtain ⟨part', hread', hget'⟩ := read_tokensUnder built reads' key
  rw [segments, hread] at hread'
  cases hread'
  obtain ⟨a, properties, hroot⟩ := built.root_object
  have distinct : child.Every Node.DistinctKeys := by
    have all := built.distinct
    rw [hroot] at all hchild
    exact all.property hchild
  rw [part_eq built plain mapping reads hchild, part_eq built plain mapping' reads' hchild, entry,
    property_congr_input distinct fun names => (hget' names).symm.trans (hget names)]

/-! ## The whole -/

theorem resolve_idle (plain : s.root.attrs.actions = [] ∧ s.root.attrs.checks = [])
    (reads : FlagInput.read s.flags tokens = .ok input) :
    s.resolve config (some tokens) =
      contents (some input) .root s.root.properties config >>= fun fields => pure (.object fields) := by
  rw [resolve_eq, Option.getD_some, reads]
  show s.resolveInput config input = _
  simp only [resolveInput_eq, finish_idle plain]

section Declared

variable (built : s.Built) (still : s.root.Every Node.MakesNothing)
  (plain : s.root.attrs.actions = [] ∧ s.root.attrs.checks = []) (mapping : IsMapping config)
  (reads : FlagInput.read s.flags tokens = .ok input)
  (declared : ∀ entry ∈ ParamTree.entriesOf config, (s.root.property? entry.1).isSome)
  {fs fs' : FileSystem}

include built still plain mapping reads declared

/-- With declared keys alone the resolution fills the root by its parts. -/
theorem resolve_parts : ∃ entries,
    s.resolve config (some tokens) =
        fill (some input) .root entries s.root.properties >>= (fun fields => pure (.object fields)) ∧
      (∀ p ∈ s.root.properties, s.part config tokens p.1 =
        property (some input) (ParamPath.root.key p.1) (entries.lookup p.1) p.2 >>= fun v =>
          pure (.object [(p.1, v)])) ∧
      ∀ p ∈ s.root.properties, ∀ here given, Keeps Eq (property (some input) here given p.2) := by
  obtain ⟨entries, hsup⟩ : ∃ entries, supplied s.root.properties .root config = .ok entries :=
    supplied_declared mapping declared
  obtain ⟨a, properties, hroot⟩ := built.root_object
  refine ⟨entries, ?_, fun p hp => ?_, fun p hp here given => keeps_property_eq ?_ given⟩
  · rw [resolve_idle plain reads, contents, hsup]
    rfl
  · rw [lookup_supplied hsup]
    exact part_eq built plain mapping reads hp
  · rw [hroot] at still hp
    exact still.property hp

theorem resolve_ok_iff_parts {v : Value} :
    (s.resolve config (some tokens)).run fs = .ok v fs' ↔
      fs' = fs ∧ ∃ fields, v = .object fields ∧
        fields.map Prod.fst = s.root.properties.map Prod.fst ∧
        ∀ field ∈ fields, (s.part config tokens field.1).run fs = .ok (.object [field]) fs := by
  obtain ⟨entries, hresolve, parts, stillParts⟩ :=
    resolve_parts built still plain mapping reads declared
  rw [hresolve, run_bind_ok]
  constructor
  · rintro ⟨fields, fs₁, hfill, hpure⟩
    obtain ⟨rfl, rfl⟩ := run_pure_ok.mp hpure
    obtain ⟨rfl, hkeys, hfields⟩ := (fill_parts_ok parts stillParts).mp hfill
    exact ⟨rfl, fields, rfl, hkeys, hfields⟩
  · rintro ⟨rfl, fields, rfl, hkeys, hfields⟩
    exact ⟨fields, fs', (fill_parts_ok parts stillParts).mpr ⟨rfl, hkeys, hfields⟩, rfl⟩

theorem resolve_error_iff_parts {e : ResolveError} :
    (s.resolve config (some tokens)).run fs = .error e fs' ↔
      ∃ before key after, s.root.properties.map Prod.fst = before ++ key :: after ∧
        (∀ earlier ∈ before, ∃ v, (s.part config tokens earlier).run fs = .ok v fs) ∧
          (s.part config tokens key).run fs = .error e fs' := by
  obtain ⟨entries, hresolve, parts, stillParts⟩ :=
    resolve_parts built still plain mapping reads declared
  rw [hresolve, ← fill_parts_error parts stillParts]
  constructor
  · intro run
    rcases run_bind_error.mp run with run | ⟨fields, fs₁, -, run⟩
    · exact run
    · exact absurd run run_pure_error
  · exact fun run => run_bind_error.mpr (.inl run)

end Declared

theorem resolve_undeclared (plain : s.root.attrs.actions = [] ∧ s.root.attrs.checks = [])
    (reads : FlagInput.read s.flags tokens = .ok input) {key : String}
    (h : FirstUndeclared s.root config key) (fs : FileSystem) :
    (s.resolve config (some tokens)).run fs = .error (.unknownKey (ParamPath.root.key key)) fs := by
  rw [resolve_idle plain reads, contents, supplied_firstUndeclared h]
  rfl

/-- Either all keys of a mapping are declared or there is a first that is not. -/
theorem declared_or_first (n : Node) (mapping : IsMapping config) :
    (∀ entry ∈ ParamTree.entriesOf config, (n.property? entry.1).isSome) ∨
      ∃ key, FirstUndeclared n config key := by
  cases config with
  | none => exact .inl nofun
  | some c =>
      obtain ⟨entries, rfl⟩ := mapping c rfl
      cases hfind : entries.find? fun entry => (n.property? entry.1).isNone with
      | none =>
          refine .inl fun entry hentry => ?_
          exact Option.isSome_iff_ne_none.mpr (by simpa using List.find?_eq_none.mp hfind entry hentry)
      | some first =>
          obtain ⟨key, value⟩ := first
          obtain ⟨undeclared, before, after, rfl, declared⟩ := List.find?_eq_some_iff_append.mp hfind
          refine .inr ⟨key, before, value, after, rfl, fun entry hentry => ?_, ?_⟩
          · exact Option.isSome_iff_exists.mp (by simpa using declared entry hentry)
          · exact Option.isNone_iff_eq_none.mp undeclared

/-- A resolution that succeeds has at each property what the part has, and nothing else. -/
theorem get?_of_resolve (built : s.Built) (still : s.root.Every Node.MakesNothing)
    (plain : s.root.attrs.actions = [] ∧ s.root.attrs.checks = []) (mapping : IsMapping config)
    (reads : FlagInput.read s.flags tokens = .ok input) {fs fs' : FileSystem} {v : Value}
    (run : (s.resolve config (some tokens)).run fs = .ok v fs') (key : String) :
    (key ∉ s.root.properties.map Prod.fst ∧ v.get? key = none) ∨
      ∃ child value, (key, child) ∈ s.root.properties ∧ v.get? key = some value ∧
        (s.part config tokens key).run fs = .ok (.object [(key, value)]) fs := by
  rcases declared_or_first s.root mapping with declared | ⟨first, hfirst⟩
  · obtain ⟨-, fields, rfl, hkeys, hfields⟩ :=
      (resolve_ok_iff_parts built still plain mapping reads declared).mp run
    cases hget : fields.lookup key with
    | none =>
        refine .inl ⟨?_, hget⟩
        rw [← hkeys, ← lookup_isSome_iff_mem, hget]
        simp
    | some value =>
        have hmem := mem_of_lookup hget
        have hkey : key ∈ s.root.properties.map Prod.fst := by
          rw [← hkeys]
          exact List.mem_map_of_mem hmem
        obtain ⟨⟨k, child⟩, hchild, heq⟩ := List.mem_map.mp hkey
        obtain rfl : k = key := heq
        exact .inr ⟨child, value, hchild, hget, hfields (k, value) hmem⟩
  · rw [resolve_undeclared plain reads hfirst] at run
    cases run

/-- **A resolution is made of its parts.** With an undeclared key in the config it fails
there. Otherwise it joins the values of its parts in declaration order, or fails as the
first part that fails; each part is a resolution of a built schema. So what a property
gets depends on its own entry of the config and its own segments alone. -/
theorem resolve_compositional (built : s.Built) (still : s.root.Every Node.MakesNothing)
    (plain : s.root.attrs.actions = [] ∧ s.root.attrs.checks = []) (mapping : IsMapping config)
    (reads : FlagInput.read s.flags tokens = .ok input) (fs : FileSystem) :
    let keys := s.root.properties.map Prod.fst
    let run := (s.resolve config (some tokens)).run fs
    let part := fun key => (s.part config tokens key).run fs
    (∀ key, (s.only key).Built) ∧
      (∀ key, FirstUndeclared s.root config key →
        run = .error (.unknownKey (ParamPath.root.key key)) fs) ∧
      ((∀ entry ∈ ParamTree.entriesOf config, (s.root.property? entry.1).isSome) →
        (∀ v fs', run = .ok v fs' ↔ fs' = fs ∧ ∃ fields, v = .object fields ∧
          fields.map Prod.fst = keys ∧ ∀ field ∈ fields, part field.1 = .ok (.object [field]) fs) ∧
        ∀ e fs', run = .error e fs' ↔ ∃ before key after, keys = before ++ key :: after ∧
          (∀ earlier ∈ before, ∃ v, part earlier = .ok v fs) ∧ part key = .error e fs') ∧
      ∀ key config' tokens' input', IsMapping config' →
        FlagInput.read s.flags tokens' = .ok input' →
        config'.bind (·.get? key) = config.bind (·.get? key) →
        s.tokensUnder key tokens' = s.tokensUnder key tokens →
          ∀ v v' fs₁ fs₂, run = .ok v fs₁ → (s.resolve config' (some tokens')).run fs = .ok v' fs₂ →
            v'.get? key = v.get? key := by
  intro keys run part
  refine ⟨built.only, fun key h => resolve_undeclared plain reads h fs, fun declared => ⟨?_, ?_⟩, ?_⟩
  · exact fun v fs' => resolve_ok_iff_parts built still plain mapping reads declared
  · exact fun e fs' => resolve_error_iff_parts built still plain mapping reads declared
  · intro key config' tokens' input' mapping' reads' entry segments v v' fs₁ fs₂ hrun hrun'
    rcases get?_of_resolve built still plain mapping reads hrun key with
      ⟨hkey, hnone⟩ | ⟨child, value, hchild, hvalue, hpart⟩ <;>
    rcases get?_of_resolve built still plain mapping' reads' hrun' key with
      ⟨hkey', hnone'⟩ | ⟨child', value', hchild', hvalue', hpart'⟩
    · rw [hnone, hnone']
    · exact absurd (List.mem_map_of_mem hchild') hkey
    · exact absurd (List.mem_map_of_mem hchild) hkey'
    · rw [part_congr built plain mapping mapping' reads reads' hchild entry segments, hpart] at hpart'
      cases hpart'
      rw [hvalue, hvalue']

/-- The flags below one property of the sample, and the part that they are read for. -/
theorem resolve_compositional_training :
    trainingSchema.tokensUnder "data" trainingTokens = ["--mode", "fast", "--mode", "slow"] ∧
      (trainingSchema.only "data").Built ∧
      (trainingSchema.part (some trainingConfig) trainingTokens "data").run (.bare []) =
        .ok (.object [("data",
          .object [("train", .array [.string "a"]), ("mode", .string "slow")])]) (.bare []) := by
  have reads : FlagInput.read trainingSchema.flags trainingTokens =
      .ok ⟨[(["data", "mode"], .single "slow"), (["verbose"], .bare)]⟩ := by decide +kernel
  have still : trainingSchema.root.Every Node.MakesNothing := by
    simp [trainingSchema, trainingRoot, Node.MakesNothing, Node.plainScalar, Node.attrs]
  have mapping : IsMapping (some trainingConfig) := fun v hv => ⟨_, (Option.some.inj hv).symm⟩
  obtain ⟨built, -, parts, -⟩ :=
    resolve_compositional trainingSchema_built still ⟨rfl, rfl⟩ mapping reads (.bare [])
  obtain ⟨-, fields, heq, -, hfields⟩ := ((parts (by decide +kernel)).1 _ _).mp trainingSchema_run
  cases heq
  exact ⟨by decide +kernel, built "data", hfields ("data", _) List.mem_cons_self⟩

end Schema

end ParamTree
