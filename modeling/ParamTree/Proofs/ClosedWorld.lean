import ParamTree.Proofs.Failures
import ParamTree.Proofs.Reading

/-!
# The config is a closed world

Every object that is reached through properties is visited, and what fills it may hold
declared keys alone. `contents_object` says so of a resolution that succeeds, so an
undeclared key in the config of such an object is fatal whatever else is given;
`contents_unknownKey` says of one that fails with an undeclared key that the object
around it is filled by a mapping with that key, the first of its kind.
-/

namespace ParamTree

open FileM Resolve ResolveError

/-! ## What the config holds fills the object -/

/-- On the way to a mapping no entry is null. -/
theorem subtree_of_descend {a : Attributes} {v : Value} {names : List String} {entries : Entries}
    (h : v.descend names = some (.object entries)) : subtree a (some v) = some v := by
  cases v with
  | null => cases names <;> cases h
  | bool | number | string | array | object => rfl

/-- A mapping that the config holds for an object fills the object, whatever defaults
there are. -/
theorem filling_of_descend {n m : Node} {c : Value} {names : List String} {entries : Entries}
    (hd : n.descend names = some m) (h : c.descend names = some (.object entries)) :
    filling n (some c) names = some (.object entries) := by
  induction names generalizing n c with
  | nil => exact h
  | cons name names ih =>
      obtain ⟨child, hchild, hd⟩ := Node.descend_cons.mp hd
      obtain ⟨u, hu, h⟩ := Value.descend_cons.mp h
      rw [filling_cons hchild, Option.bind_some, hu, subtree_of_descend h]
      exact ih hd h

namespace Resolve

variable {flags : Option FlagInput} {path : ParamPath} {entries : Entries} {fs fs' : FileSystem}

/-! ## Runs that succeed -/

/-- A resolution that succeeds has visited every object that is reached through
properties, and admitted what fills it. -/
theorem contents_object {n m : Node} {given : Option Value} {fields : Entries} {names : List String}
    (distinct : n.Every Node.DistinctKeys) (hd : n.descend names = some m) (hm : m.isObject)
    (run : (contents flags path n.properties given).run fs = .ok fields fs') :
    ∃ here entries, supplied m.properties here (filling n given names) = .ok entries := by
  induction names generalizing n given fields fs fs' path with
  | nil =>
      cases hd
      obtain ⟨entries, hsup, -⟩ := contents_ok.mp run
      exact ⟨path, entries, hsup⟩
  | cons name names ih =>
      obtain ⟨child, hchild, hrest⟩ := Node.descend_cons.mp hd
      obtain ⟨a, properties, rfl, hmem⟩ := Node.isObject_of_property? hchild
      obtain ⟨entries, hsup, hfill⟩ := contents_ok.mp run
      -- nothing is asked of the file system, so any relation will do
      have any : RunRelation fun _ _ => True := ⟨fun _ => trivial, fun _ _ => trivial⟩
      obtain ⟨w, fs₁, fs₂, -, -, -, hprop⟩ := fill_at any (fun _ _ _ _ _ _ _ _ => trivial) hfill hmem
      rw [filling_cons hchild, ← lookup_supplied hsup]
      rcases child.leaf_or_object with hleaf | ⟨b, below, rfl⟩
      · obtain ⟨-, rfl⟩ := Node.eq_of_descend_leaf hleaf hrest
        rw [hleaf] at hm
        cases hm
      · obtain ⟨inner, fs₃, hinner, -⟩ := run_bind_ok.mp hprop
        exact ih (distinct.property hmem) hrest hinner

/-- What is admitted holds declared keys alone. -/
theorem not_supplied_of_undeclared {n : Node} {given : Entries} {key : String} {v : Value}
    (hmem : (key, v) ∈ given) (undeclared : n.property? key = none) :
    supplied n.properties path (some (.object given)) ≠ .ok entries := by
  intro h
  obtain ⟨heq, declared⟩ := supplied_ok.mp h
  cases heq
  have hkey := declared key (List.mem_map_of_mem hmem)
  rw [← lookup_isSome_iff_mem, show n.properties.lookup key = none from undeclared] at hkey
  cases hkey

/-! ## Runs that fail -/

/-- `FirstUndeclared n given key`: `given` is a mapping, and `key` is the first of its
keys that the object `n` does not declare. -/
def FirstUndeclared (n : Node) (given : Option Value) (key : String) : Prop :=
  ∃ before value after, given = some (.object (before ++ (key, value) :: after)) ∧
    (∀ entry ∈ before, ∃ child, n.property? entry.1 = some child) ∧ n.property? key = none

theorem supplied_unknownKey {n : Node} {given : Option Value} {p : ParamPath}
    (h : supplied n.properties path given = .error (.unknownKey p)) :
    ∃ key, p = path.key key ∧ FirstUndeclared n given key := by
  unfold supplied at h
  split at h
  · cases h
  · next given =>
    split at h
    · next key value hfind =>
      cases h
      obtain ⟨undeclared, before, after, rfl, declared⟩ := List.find?_eq_some_iff_append.mp hfind
      refine ⟨key, rfl, before, value, after, rfl, fun entry hentry => ?_, ?_⟩
      · have hentry := declared entry hentry
        rw [Bool.not_eq_true', Option.isNone_eq_false_iff] at hentry
        exact Option.isSome_iff_exists.mp hentry
      · exact Option.isNone_iff_eq_none.mp undeclared
    · cases h
  · cases h

theorem finish_ne_unknownKey {attrs : Attributes} {bare : Bool} {v : Value} {p : ParamPath} :
    (finish attrs bare path v).run fs ≠ .error (.unknownKey p) fs' := by
  intro run
  rcases fails_finish attrs bare v _ _ _ run with ⟨_, _, h⟩ | ⟨_, _, h⟩
  · cases h
  · cases h

theorem fill_error {properties : Properties} {e : ResolveError}
    (run : (fill flags path entries properties).run fs = .error e fs') :
    ∃ p ∈ properties, ∃ fs₁,
      (property flags (path.key p.1) (entries.lookup p.1) p.2).run fs₁ = .error e fs' := by
  induction properties generalizing fs with
  | nil =>
      rw [fill] at run
      exact absurd run run_pure_error
  | cons p rest ih =>
      rw [fill_cons] at run
      rcases run_bind_error.mp run with run | ⟨value, fs₁, -, run⟩
      · exact ⟨p, List.mem_cons_self, fs, run⟩
      · rcases run_bind_error.mp run with run | ⟨values, fs₂, -, run⟩
        · obtain ⟨q, hq, hrun⟩ := ih run
          exact ⟨q, List.mem_cons_of_mem _ hq, hrun⟩
        · exact absurd run run_pure_error

/-- A key that a property reports is undeclared in an object at the property or below. -/
theorem property_unknownKey {child : Node} {config : Option Value} {key : String}
    {names : List String} {p : ParamPath} (hp : p.up = path.below names)
    (run : (property flags (path.key key) config child).run fs = .error (.unknownKey p) fs') :
    ∃ more, names = key :: more := by
  obtain ⟨here, hnode, hprefix⟩ := (fails_node child).2 _ _ _ _ _ _ run
  obtain rfl : p.up = here := Option.some.inj hnode
  rw [hp, ParamPath.key, ParamPath.below, List.prefix_append_right_inj] at hprefix
  cases names with
  | nil => simp at hprefix
  | cons name more =>
      obtain ⟨heq, -⟩ := List.cons_prefix_cons.mp hprefix
      cases heq
      exact ⟨more, rfl⟩

/-- An undeclared key that is reported of an object reached through properties is the
first undeclared one in what fills the object. -/
theorem contents_unknownKey {n m : Node} {given : Option Value} {names : List String} {p : ParamPath}
    (distinct : n.Every Node.DistinctKeys) (hn : n.isObject) (hd : n.descend names = some m)
    (hm : m.isObject) (hp : p.up = path.below names)
    (run : (contents flags path n.properties given).run fs = .error (.unknownKey p) fs') :
    ∃ key, p = (path.below names).key key ∧ FirstUndeclared m (filling n given names) key := by
  induction names generalizing n given fs path with
  | nil =>
      cases hd
      rw [ParamPath.below_nil] at hp ⊢
      rcases run_bind_error.mp run with run | ⟨entries, fs₁, -, run⟩
      · exact supplied_unknownKey (run_liftExcept_error.mp run).1
      · -- what a property reports is deeper than the object itself
        obtain ⟨q, hq, fs₂, hrun⟩ := fill_error run
        rw [← ParamPath.below_nil path] at hp
        obtain ⟨more, hmore⟩ := property_unknownKey hp hrun
        cases hmore
  | cons name names ih =>
      obtain ⟨child, hchild, hrest⟩ := Node.descend_cons.mp hd
      rcases run_bind_error.mp run with run | ⟨entries, fs₁, hadmit, run⟩
      · -- what the object itself reports is not below it
        obtain ⟨key, rfl, -⟩ := supplied_unknownKey (run_liftExcept_error.mp run).1
        have hlength := congrArg (fun q => q.segments.length) hp
        simp [ParamPath.below] at hlength
      · obtain ⟨⟨key, other⟩, hq, fs₂, hrun⟩ := fill_error run
        obtain ⟨more, hmore⟩ := property_unknownKey hp hrun
        cases hmore
        obtain ⟨a, properties, rfl, -⟩ := Node.isObject_of_property? hchild
        obtain rfl : other = child :=
          Option.some.inj ((Node.property?_of_mem distinct.self hq).symm.trans hchild)
        rw [filling_cons hchild, ← lookup_supplied (run_liftExcept_ok.mp hadmit).1, ← ParamPath.below_key]
        rw [← ParamPath.below_key] at hp
        rcases other.leaf_or_object with hleaf | ⟨b, below, rfl⟩
        · obtain ⟨-, rfl⟩ := Node.eq_of_descend_leaf hleaf hrest
          rw [hleaf] at hm
          cases hm
        · rcases run_bind_error.mp hrun with hrun | ⟨fields, fs₃, -, hrun⟩
          · exact ih (distinct.property hq) rfl hrest hp hrun
          · exact absurd hrun finish_ne_unknownKey

end Resolve

namespace FlagInput

theorem read_ne_unknownKey {t : FlagTable} (ht : t.Unambiguous) (tokens : List String) (p : ParamPath) :
    read t tokens ≠ .error (.unknownKey p) := by
  intro h
  rcases FlagTable.read_outcome ht tokens with ⟨-, input, -, -, hread⟩ | ⟨e, refusal, hread⟩
  · rw [hread] at h
    cases h
  · rw [hread] at h
    cases h
    cases refusal

end FlagInput

namespace Schema

/-- **The world is closed.** Where the config holds a mapping with an undeclared key for
an object reached through properties, no resolution succeeds; and an undeclared key that
is reported of such an object stands in what fills it, as the first undeclared one. -/
theorem resolve_closed {s : Schema} (built : s.Built) (config : Option Value)
    (tokens : Option (List String)) (fs : FileSystem) :
    (∀ c names m entries key value, config = some c → s.root.descend names = some m → m.isObject →
      c.descend names = some (.object entries) → (key, value) ∈ entries → m.property? key = none →
        ∀ v fs', (s.resolve config tokens).run fs ≠ .ok v fs') ∧
    ∀ names m p fs', s.root.descend names = some m → m.isObject → p.up = .ofKeys names →
      (s.resolve config tokens).run fs = .error (.unknownKey p) fs' →
        ∃ key, p = (ParamPath.ofKeys names).key key ∧
          FirstUndeclared m (filling s.root config names) key := by
  constructor
  · rintro c names m entries key value rfl hd hm hc hkey undeclared v fs' run
    rw [resolve_eq, run_bind_ok] at run
    obtain ⟨input, fs₁, -, run⟩ := run
    rw [resolveInput_eq, run_bind_ok] at run
    obtain ⟨fields, fs₂, hfields, -⟩ := run
    obtain ⟨here, given, hsup⟩ := contents_object built.distinct hd hm hfields
    rw [filling_of_descend hd hc] at hsup
    exact not_supplied_of_undeclared hkey undeclared hsup
  · intro names m p fs' hd hm hp run
    obtain ⟨a, properties, hroot⟩ := built.root_object
    rw [resolve_eq] at run
    rcases run_bind_error.mp run with run | ⟨input, fs₁, -, run⟩
    · exact absurd (run_liftExcept_error.mp run).1 (FlagInput.read_ne_unknownKey built.unambiguous _ p)
    · rw [resolveInput_eq] at run
      rcases run_bind_error.mp run with run | ⟨fields, fs₂, -, run⟩
      · exact contents_unknownKey built.distinct (by rw [hroot]; rfl) hd hm hp run
      · exact absurd run finish_ne_unknownKey

/-- Two undeclared keys below an object whose flags are given: the first is reported. -/
theorem resolve_closed_training :
    let config := .object [("data", .object [("train", .null), ("zip", .null), ("csv", .null)])]
    let tokens := ["--train", "a", "--mode", "fast"]
    trainingSchema.Built ∧
      (∀ v fs', (trainingSchema.resolve (some config) (some tokens)).run (.bare []) ≠ .ok v fs') ∧
      ∃ m key, trainingSchema.root.descend ["data"] = some m ∧
        (ParamPath.ofKeys ["data"]).key "zip" = (ParamPath.ofKeys ["data"]).key key ∧
        FirstUndeclared m (filling trainingSchema.root (some config) ["data"]) key := by
  intro config tokens
  obtain ⟨fatal, reported⟩ := resolve_closed trainingSchema_built (some config) (some tokens) (.bare [])
  have run : (trainingSchema.resolve (some config) (some tokens)).run (.bare []) =
      .error (.unknownKey ((ParamPath.ofKeys ["data"]).key "zip")) (.bare []) := by cbv
  obtain ⟨key, hkey, hfirst⟩ := reported ["data"] _ _ _ rfl rfl rfl run
  refine ⟨trainingSchema_built, ?_, _, key, rfl, hkey, hfirst⟩
  exact fatal _ ["data"] _ _ "csv" .null rfl rfl rfl rfl (by simp) rfl

end Schema

end ParamTree
