import ParamTree.Proofs.Restriction
import ParamTree.Proofs.Selection
import ParamTree.Proofs.Survival

/-!
# Adding a parameter

A schema may get one more scalar with a default. It brings a flag and a key, and both could
get in the way of what was there: the flag cuts the token list in other places, the key is
admitted where it was an error, and the value stands among others. `resolve_added` says that
none of this happens where the tokens do not use the flag. Whatever resolved still does, and
only the value of the new parameter is added (`Value.Adds`), at its place in its object.
-/

namespace ParamTree

open FileM Resolve

/-! ## One more property -/

/-- `Node.Adds i key leaf names n n'`: the object that `names` lead to in `n` has one more
property in `n'`, at place `i`. No object on the way has actions. -/
inductive Node.Adds (i : Nat) (key : String) (leaf : Node) : List String → Node → Node → Prop
  | here {a before after} (plain : a.actions = []) (place : before.length = i) :
      Adds i key leaf [] (.object a (before ++ after)) (.object a (before ++ (key, leaf) :: after))
  | inside {a before name n n' after names} (plain : a.actions = [])
      (inner : Adds i key leaf names n n') :
      Adds i key leaf (name :: names) (.object a (before ++ (name, n) :: after))
        (.object a (before ++ (name, n') :: after))

/-- `Value.Adds i key r names v w`: the mapping that `names` lead to in `v` has one more entry
in `w`, at place `i`. -/
inductive Value.Adds (i : Nat) (key : String) (r : Value) : List String → Value → Value → Prop
  | here {before after} (place : before.length = i) :
      Adds i key r [] (.object (before ++ after)) (.object (before ++ (key, r) :: after))
  | inside {before name v w after names} (inner : Adds i key r names v w) :
      Adds i key r (name :: names) (.object (before ++ (name, v) :: after))
        (.object (before ++ (name, w) :: after))

/-- A scalar that nothing is done with. -/
def Node.IsPlainScalar (n : Node) : Prop :=
  ∃ a type choices, n = .scalar a type choices ∧ a.actions = [] ∧ a.checks = []

namespace Node.Adds

variable {i : Nat} {key : String} {leaf n n' : Node} {names : List String}

theorem objects (h : Node.Adds i key leaf names n n') :
    ∃ a ps ps', n = .object a ps ∧ n' = .object a ps' ∧ a.actions = [] := by
  cases h with
  | here plain | inside plain => exact ⟨_, _, _, rfl, rfl, plain⟩

/-- The key is new in its object. -/
theorem fresh {a : Attributes} {before after : Properties}
    (distinct : (Node.object a (before ++ (key, leaf) :: after)).DistinctKeys) :
    key ∉ (before ++ after).map Prod.fst := by
  have hnodup : ((before ++ (key, leaf) :: after).map Prod.fst).Nodup := distinct
  rw [List.map_append, List.map_cons, List.nodup_middle, List.nodup_cons] at hnodup
  rw [List.map_append]
  exact hnodup.1

/-- Without the new property its names lead nowhere. -/
theorem descend_none (h : Node.Adds i key leaf names n n') (distinct : n.Every Node.DistinctKeys)
    (distinct' : n'.Every Node.DistinctKeys) : n.descend (names ++ [key]) = none := by
  induction h with
  | @here a before after =>
      have fresh := fresh distinct'.self
      rw [← lookup_isSome_iff_mem, Option.not_isSome_iff_eq_none] at fresh
      rw [List.nil_append, Node.descend, Node.property?, Node.properties, fresh]
      rfl
  | @inside a before name n n' after names _ _ ih =>
      have hmem : (name, n) ∈ before ++ (name, n) :: after := by simp
      have hmem' : (name, n') ∈ before ++ (name, n') :: after := by simp
      rw [List.cons_append, Node.descend, Node.property?_of_mem distinct.self hmem]
      exact ih (distinct.property hmem) (distinct'.property hmem')

/-! ## Its flag -/

/-- The flags of the tree are those of the smaller one and that of the new node. -/
theorem candidates (h : Node.Adds i key leaf names n n') (hl : leaf.isObject = false)
    (path : List String) (lead : String) :
    ∃ added, added.path = path ++ names ++ [key] ∧ ∀ f, f ∈ Flag.candidates path lead n'.properties ↔
      f = added ∨ f ∈ Flag.candidates path lead n.properties := by
  induction h generalizing path lead with
  | @here a before after =>
      refine ⟨Flag.ofNode leaf (path ++ [key]) (Flag.nameOf lead key leaf), by simp [Flag.ofNode], ?_⟩
      intro f
      rw [Node.properties, Node.properties, Flag.candidates_eq_flatMap, Flag.candidates_eq_flatMap,
        List.flatMap_append, List.flatMap_append, List.flatMap_cons, Flag.ofProperty_leaf hl]
      simp only [List.mem_append, List.mem_singleton]
      grind
  | @inside a before name n n' after names _ inner ih =>
      obtain ⟨b, ps, ps', rfl, rfl, -⟩ := inner.objects
      obtain ⟨added, hpath, hmem⟩ := ih (path ++ [name])
        (Flag.nameOf lead name (.object b ps) ++ "-")
      refine ⟨added, by simp [hpath], ?_⟩
      intro f
      have same : f ∈ Flag.ofProperty path lead (name, .object b ps') ↔
          f = added ∨ f ∈ Flag.ofProperty path lead (name, .object b ps) := hmem f
      rw [Node.properties, Node.properties, Flag.candidates_eq_flatMap, Flag.candidates_eq_flatMap,
        List.flatMap_append, List.flatMap_append, List.flatMap_cons, List.flatMap_cons]
      simp only [List.mem_append, same]
      grind

end Node.Adds

namespace Resolve

variable {flags : Option FlagInput} {path here : ParamPath} {entries : Entries}
  {fs fs' gs gs' : FileSystem}
  {i : Nat} {key : String} {leaf n n' : Node} {names : List String} {r v : Value}

/-! ## Its value -/

/-- Where no flag and no config entry is given, the value comes from the default. -/
theorem pick_default {raw : Raw} (hpick : pick none leaf none here = .ok raw)
    (silent : flags.bind (·.get? path.keys) = none) :
    raw.bare = false ∧ pick flags leaf none path = .ok raw := by
  unfold pick at hpick ⊢
  rw [silent]
  simp only [Option.bind_none] at hpick ⊢
  split at hpick
  · cases hpick
    exact ⟨rfl, rfl⟩
  · cases hpick

/-- A plain scalar that resolves to its default does so anywhere. -/
theorem property_default (plain : leaf.IsPlainScalar)
    (run : (property none here none leaf).run gs = .ok r gs')
    (silent : flags.bind (·.get? path.keys) = none) (fs : FileSystem) :
    (property flags path none leaf).run fs = .ok r fs := by
  obtain ⟨a, type, choices, rfl, idle⟩ := plain
  have leaf : (Node.scalar a type choices).isObject = false := rfl
  rw [property_leaf leaf, run_bind_ok] at run ⊢
  obtain ⟨raw, _, hraw, hvalue⟩ := run
  obtain ⟨hpick, -⟩ := run_liftExcept_ok.mp hraw
  obtain ⟨bare, hpick⟩ := pick_default hpick silent
  refine ⟨raw, fs, run_liftExcept_ok.mpr ⟨hpick, rfl⟩, ?_⟩
  have finished : ∀ p w, finish (Node.scalar a type choices).attrs raw.bare p w = pure w := by
    rw [bare]
    exact finish_idle idle false
  rw [nodeValue, funext (finished _), bind_pure] at hvalue ⊢
  rcases shape_run_ok.mp hvalue with ⟨hnull, admitted, rfl, -⟩ | ⟨given, hshape⟩
  · exact shape_run_ok.mpr (.inl ⟨hnull, admitted, rfl, rfl⟩)
  · -- the place of a scalar counts for its failures alone
    have shaped := shapeScalar_ok.mp (run_liftExcept_ok.mp hshape).1
    exact shape_run_ok.mpr (.inr ⟨given, run_liftExcept_ok.mpr ⟨shapeScalar_ok.mpr shaped, rfl⟩⟩)

/-- A property that is filled by itself is filled among others, in its place. -/
theorem fill_insert {before after : Properties} {fields : Entries} (missing : entries.lookup key = none)
    (alone : ∀ fs, (property flags (path.key key) none leaf).run fs = .ok r fs)
    (run : (fill flags path entries (before ++ after)).run fs = .ok fields fs') :
    ∃ first rest, fields = first ++ rest ∧ first.length = before.length ∧
      (fill flags path entries (before ++ (key, leaf) :: after)).run fs =
        .ok (first ++ (key, r) :: rest) fs' := by
  obtain ⟨first, fs₁, rest, hfirst, hrest, rfl⟩ := fill_append_ok.mp run
  have hkeys := congrArg List.length (fill_keys hfirst)
  refine ⟨first, rest, rfl, by simpa using hkeys, ?_⟩
  refine fill_append_ok.mpr ⟨first, fs₁, _, hfirst, ?_, rfl⟩
  refine fill_cons_ok.mpr ⟨r, fs₁, rest, ?_, hrest, rfl⟩
  rw [missing]
  exact alone fs₁

section Supplied

variable {ps ps' : Properties} {given : Option Value} (hsup : supplied ps path given = .ok entries)

include hsup

theorem supplied_keys : ∀ k ∈ entries.map Prod.fst, k ∈ ps.map Prod.fst := by
  cases given with
  | none =>
      cases hsup
      exact nofun
  | some v => exact (supplied_ok.mp hsup).2

/-- What fills an object fills one with more properties. -/
theorem supplied_mono (more : ∀ k ∈ ps.map Prod.fst, k ∈ ps'.map Prod.fst) :
    supplied ps' path given = .ok entries := by
  cases given with
  | none => exact hsup
  | some v =>
      obtain ⟨rfl, declared⟩ := supplied_ok.mp hsup
      exact supplied_ok.mpr ⟨rfl, fun k hk => more k (declared k hk)⟩

end Supplied

/-- A check fails on every mapping. -/
theorem check_run_mapping {check : Check} {es : Entries} {u : Unit} :
    (check.run (.object es)).run fs ≠ .ok u fs' := by
  intro h
  rw [Check.run, forEachPath.eq_3 _ _ _ (by simp) (by simp)] at h
  exact run_throw_ok h

/-- An object without actions that is finished has no checks either, and its value is the
mapping. -/
theorem finish_mapping {a : Attributes} (plain : a.actions = []) {bare : Bool} {es : Entries}
    (run : (finish a bare path (.object es)).run fs = .ok v fs') :
    a.checks = [] ∧ v = .object es ∧ fs' = fs := by
  cases hchecks : a.checks with
  | nil =>
      rw [finish_idle ⟨plain, hchecks⟩, run_pure_ok] at run
      exact ⟨rfl, run⟩
  | cons check rest =>
      rw [finish, plain, hchecks] at run
      simp only [Value.isNull, Bool.false_eq_true, if_false] at run
      obtain ⟨w, fs₁, happly, hchecked⟩ := run_bind_ok.mp run
      obtain ⟨rfl, -⟩ := run_pure_ok.mp happly
      obtain ⟨_, fs₂, hall, -⟩ := run_bind_ok.mp hchecked
      obtain ⟨_, fs₃, hfirst, -⟩ := run_bind_ok.mp hall
      exact absurd (run_adaptExcept_ok.mp hfirst) check_run_mapping

theorem survives_finish {a : Attributes} (plain : a.actions = []) {x y : Resolution Entries}
    (h : Survives (fun fields fields' => Value.Adds i key r names (.object fields) (.object fields'))
      x y) :
    Survives (Value.Adds i key r names) (x >>= fun fields => finish a false path (.object fields))
      (y >>= fun fields => finish a false path (.object fields)) := by
  intro fs w fs' run
  obtain ⟨fields, fs₁, hfields, hfinish⟩ := run_bind_ok.mp run
  obtain ⟨checks, rfl, rfl⟩ := finish_mapping plain hfinish
  obtain ⟨fields', hfields', adds⟩ := h fs fields fs' hfields
  refine ⟨.object fields', run_bind_ok.mpr ⟨fields', fs', hfields', ?_⟩, adds⟩
  rw [finish_idle ⟨plain, checks⟩]
  rfl

/-- Where the new parameter resolves by itself, an object resolves as before and with it. -/
theorem survives_contents (h : Node.Adds i key leaf names n n') (distinct : n.Every Node.DistinctKeys)
    (distinct' : n'.Every Node.DistinctKeys)
    (alone : ∀ place : ParamPath, flags.bind (·.get? place.keys) = none → ∀ fs,
      (property flags place none leaf).run fs = .ok r fs)
    (silent : flags.bind (·.get? (path.below (names ++ [key])).keys) = none) (given : Option Value) :
    Survives (fun fields fields' => Value.Adds i key r names (.object fields) (.object fields'))
      (contents flags path n.properties given) (contents flags path n'.properties given) := by
  induction h generalizing path given with
  | @here a before after _ place =>
      intro fs fields fs' run
      have fresh := Node.Adds.fresh distinct'.self
      obtain ⟨entries, hsup, hfill⟩ := contents_ok.mp run
      have missing : entries.lookup key = none := by
        rw [← Option.not_isSome_iff_eq_none, lookup_isSome_iff_mem]
        exact fun hkey => fresh (supplied_keys hsup key hkey)
      have silent : flags.bind (·.get? (path.key key).keys) = none := by
        rw [← ParamPath.below_nil (path.key key), ParamPath.below_key]
        exact silent
      obtain ⟨first, rest, rfl, hlength, hfill⟩ := fill_insert missing (alone _ silent) hfill
      refine ⟨first ++ (key, r) :: rest, contents_ok.mpr ⟨entries, ?_, hfill⟩,
        .here (hlength.trans place)⟩
      exact supplied_mono hsup (by simp [Node.properties]; grind)
  | @inside a before name n n' after names _ inner ih =>
      intro fs fields fs' run
      obtain ⟨b, ps, ps', rfl, rfl, plain⟩ := inner.objects
      obtain ⟨entries, hsup, hfill⟩ := contents_ok.mp run
      obtain ⟨first, fs₁, _, hfirst, hothers, rfl⟩ := fill_append_ok.mp hfill
      obtain ⟨value, fs₂, rest, hvalue, hrest, rfl⟩ := fill_cons_ok.mp hothers
      have hmem : (name, Node.object b ps) ∈ before ++ (name, .object b ps) :: after := by simp
      have hmem' : (name, Node.object b ps') ∈ before ++ (name, .object b ps') :: after := by simp
      have silent : flags.bind (·.get? ((path.key name).below (names ++ [key])).keys) = none := by
        rw [ParamPath.below_key]
        exact silent
      have walk := ih (distinct.property hmem) (distinct'.property hmem') silent
        (subtree b (entries.lookup name))
      obtain ⟨value', hvalue', adds⟩ := survives_finish plain walk fs₁ value fs₂ hvalue
      refine ⟨first ++ (name, value') :: rest, contents_ok.mpr ⟨entries, ?_, ?_⟩, .inside adds⟩
      · exact supplied_mono hsup (by simp [Node.properties])
      · exact fill_append_ok.mpr ⟨first, fs₁, _, hfirst, fill_cons_ok.mpr
          ⟨value', fs₂, rest, hvalue', hrest, rfl⟩, rfl⟩

end Resolve

namespace Schema

variable {s s' : Schema} {i : Nat} {key : String} {leaf : Node} {names : List String} {r v : Value}
  {config : Option Value} {tokens : Option (List String)} {fs fs' gs gs' : FileSystem}

/-! ## The whole schema -/

/-- The new flag stands beside the others. -/
theorem flags_added (built : s.Built) (built' : s'.Built)
    (adds : Node.Adds i key leaf names s.root s'.root) (hl : leaf.isObject = false) :
    ∃ added, added.path = names ++ [key] ∧
      ∀ f, f ∈ s'.flags.flags ↔ f = added ∨ f ∈ s.flags.flags := by
  obtain ⟨added, hpath, hmem⟩ := adds.candidates hl [] ""
  rw [built.flags_eq, built'.flags_eq]
  exact ⟨added, hpath, hmem⟩

/-- Tokens that are no tag of the new flag are read as before. -/
theorem read_added (built : s.Built) (built' : s'.Built)
    (adds : Node.Adds i key leaf names s.root s'.root) (hl : leaf.isObject = false)
    {tokens : List String} (unused : ∀ f ∈ s'.flags.flags, f.path = names ++ [key] →
      ∀ token ∈ tokens, token ∉ f.tags) :
    FlagInput.read s'.flags tokens = FlagInput.read s.flags tokens := by
  obtain ⟨added, hpath, hmem⟩ := flags_added built built' adds hl
  refine FlagInput.read_congr fun token htoken => Option.ext fun f => ?_
  rw [built'.unambiguous.find?_iff, built.unambiguous.find?_iff, hmem]
  constructor
  · rintro ⟨rfl | hf, htag⟩
    · exact absurd htag (unused f ((hmem f).mpr (.inl rfl)) hpath token htoken)
    · exact ⟨hf, htag⟩
  · exact fun h => ⟨.inr h.1, h.2⟩

/-- **Adding a parameter changes nothing else.** The new property is a scalar without actions
and checks in an object that is reached through objects without actions, and its default
resolves to `r`. Where no token is a tag of its flag, whatever resolved before still does, with
the same files, and its value differs by the entry of the new property alone. -/
theorem resolve_added (built : s.Built) (built' : s'.Built)
    (adds : Node.Adds i key leaf names s.root s'.root) (plain : leaf.IsPlainScalar)
    (default : (property none .root none leaf).run gs = .ok r gs')
    (unused : ∀ f ∈ s'.flags.flags, f.path = names ++ [key] →
      ∀ token ∈ tokens.getD [], token ∉ f.tags)
    (run : (s.resolve config tokens).run fs = .ok v fs') :
    ∃ w, (s'.resolve config tokens).run fs = .ok w fs' ∧ Value.Adds i key r names v w := by
  have hl : leaf.isObject = false := by
    obtain ⟨a, type, choices, rfl, -⟩ := plain
    rfl
  rw [resolve_eq] at run
  obtain ⟨input, _, hinput, hrun⟩ := run_bind_ok.mp run
  obtain ⟨hread, rfl⟩ := run_liftExcept_ok.mp hinput
  -- no flag of the smaller schema leads to the new property
  have silent : input.get? (names ++ [key]) = none := by
    refine FlagInput.read_get?_none hread fun f hf hpath => ?_
    obtain ⟨n, name, -, -, hd, -⟩ := built.flag_leaf hf
    rw [hpath, adds.descend_none built.distinct built'.distinct] at hd
    cases hd
  have walk : Survives
      (fun fields fields' => Value.Adds i key r names (.object fields) (.object fields'))
      (contents (some input) .root s.root.properties config)
      (contents (some input) .root s'.root.properties config) := by
    refine survives_contents adds built.distinct built'.distinct
      (fun place hplace fs => property_default plain default hplace fs) ?_ config
    rw [ParamPath.root_below, ParamPath.keys_ofKeys]
    exact silent
  rw [← read_added built built' adds hl unused] at hread
  rw [resolveInput_eq] at hrun
  obtain ⟨a, ps, ps', hroot, hroot', hplain⟩ := adds.objects
  rw [hroot, hroot'] at walk
  rw [hroot] at hrun
  obtain ⟨w, hw, hadds⟩ := survives_finish hplain walk _ v fs' hrun
  refine ⟨w, ?_, hadds⟩
  rw [resolve_eq]
  refine run_bind_ok.mpr ⟨input, _, run_liftExcept_ok.mpr ⟨hread, rfl⟩, ?_⟩
  rw [resolveInput_eq, hroot']
  exact hw

/-- The document of an object with these properties. -/
def groupDocument (properties : Entries) : Value :=
  .object [("properties", .object [("group", .object [("properties", .object properties)])])]

/-- An integer with a default. -/
def integerMapping : Value := .object [("type", .string "integer"), ("default", three)]

/-- Its node. -/
def integerNode : Node := .scalar { default := some three } (.typed .integer) none

/-- The schema of the object. -/
def groupSchema (properties : Properties) : Schema where
  title := none
  description := none
  root := .object {} [("group", .object {} properties)]
  flags := ⟨properties.map fun p => .ofNode p.2 ["group", p.1] p.1⟩

theorem groupSchema_built :
    (groupSchema [("last", integerNode)]).Built ∧
      (groupSchema [("first", integerNode), ("last", integerNode)]).Built := by
  constructor
  · exact ⟨groupDocument [("last", integerMapping)],
      by simp [groupDocument, integerMapping, three, Value.WellFormed, Value.WellFormedEntries], by cbv⟩
  · exact ⟨groupDocument [("first", integerMapping), ("last", integerMapping)],
      by simp [groupDocument, integerMapping, three, Value.WellFormed, Value.WellFormedEntries], by cbv⟩

/-- The flag of the one property is used, and another property comes before it. -/
theorem resolve_added_group :
    let tokens := ["--last", "5"]
    let five := .number (.integer ⟨5, by decide, by decide⟩)
    let old := groupSchema [("last", integerNode)]
    let new := groupSchema [("first", integerNode), ("last", integerNode)]
    (old.resolve none (some tokens)).run (.bare []) =
        .ok (.object [("group", .object [("last", five)])]) (.bare []) ∧
      ∃ w, (new.resolve none (some tokens)).run (.bare []) = .ok w (.bare []) ∧
        Value.Adds 0 "first" three ["group"] (.object [("group", .object [("last", five)])]) w := by
  intro tokens five old new
  have run : (old.resolve none (some tokens)).run (.bare []) =
      .ok (.object [("group", .object [("last", five)])]) (.bare []) := by cbv
  have adds : Node.Adds 0 "first" integerNode ["group"] old.root new.root :=
    @Node.Adds.inside _ _ _ _ [] _ _ _ _ _ rfl (@Node.Adds.here _ _ _ _ [] _ rfl rfl)
  have alone : (property none .root none integerNode).run (.bare []) = .ok three (.bare []) := by cbv
  refine ⟨run, resolve_added groupSchema_built.1 groupSchema_built.2 adds ⟨_, _, _, rfl, rfl, rfl⟩
    alone ?_ run⟩
  decide

end Schema

end ParamTree
