import ParamTree.Proofs.Tokens
import ParamTree.Proofs.Traversal

/-!
# Flags as an overlay of the config

Values from the command line can as well be written into the config. `Node.writeAt`
writes one of them at a property path, level by level, into what fills each object on
the way; `overlay` writes all that an input gives. `filling_writeAt` and
`stored_writeAt` say what a write changes: the entry at its own path, and nothing that
decides whether an object is admitted. So the walk over the overlay without flags is
the walk over the config with them (`resolve_overlay`).
-/

namespace ParamTree

open Resolve

/-- The entries of what fills an object; none where nothing does. -/
def entriesOf : Option Value → Entries
  | some (.object entries) => entries
  | _ => []

/-- The value that the command line gives, if the flag did not come alone. -/
def Given.value? : Given → Option Value
  | .bare => none
  | .single token => some (.string token)
  | .many tokens => some (.array (tokens.map .string))

/-- What fills a node after `value` is written at a property path below it. An object
on the way is filled with a mapping of what filled it before and the written entry. -/
def Node.writeAt (value : Value) : Node → List String → Option Value → Value
  | _, [], _ => value
  | n, name :: names, given =>
    .object (match n.property? name with
      | some child =>
        (entriesOf given).put name
          (writeAt value child names (subtree child.attrs (given.bind (·.get? name))))
      | none => entriesOf given)

/-- The config with the given values written at their paths. -/
def overlay (n : Node) (config : Option Value) : List (List String × Given) → Option Value
  | [] => config
  | (path, given) :: rest =>
    match given.value? with
    | some value => some (n.writeAt value path (overlay n config rest))
    | none => overlay n config rest

/-- Is the value, if there is one, a mapping? -/
def IsMapping (given : Option Value) : Prop := ∀ v, given = some v → ∃ entries, v = .object entries

/-- Is every object that is reached through properties filled by a mapping, if by
anything? -/
def FilledByMappings (n : Node) (config : Option Value) : Prop :=
  ∀ names m, n.descend names = some m → m.isObject → IsMapping (filling n config names)

/-- An object is filled by mappings if it is itself and the objects among its
properties are. -/
theorem filledByMappings_object {a : Attributes} {properties : Properties} {given : Option Value}
    (own : IsMapping given)
    (below : ∀ key b declared, (key, .object b declared) ∈ properties →
      FilledByMappings (.object b declared) (subtree b (given.bind (·.get? key)))) :
    FilledByMappings (.object a properties) given := by
  intro names m hd hm
  cases names with
  | nil => exact own
  | cons name names =>
      obtain ⟨child, hchild, hrest⟩ := Node.descend_cons.mp hd
      obtain ⟨_, _, heq, hmem⟩ := Node.isObject_of_property? hchild
      cases heq
      rw [filling_cons hchild]
      rcases child.leaf_or_object with hleaf | ⟨b, declared, rfl⟩
      · obtain ⟨-, rfl⟩ := Node.eq_of_descend_leaf hleaf hrest
        rw [hleaf] at hm
        cases hm
      · exact below name b declared hmem names m hrest hm

/-! ## One write -/

theorem lookup_entriesOf (given : Option Value) (key : String) :
    (entriesOf given).lookup key = given.bind (·.get? key) := by
  cases given with
  | none => rfl
  | some v => cases v <;> rfl

/-- Setting a key that is not looked for does not change what is found first. -/
theorem Entries.find?_put {p : String → Bool} {key : String} (h : p key = false) (value : Value)
    (entries : Entries) :
    (entries.put key value).find? (fun entry => p entry.1) =
      entries.find? fun entry => p entry.1 := by
  induction entries with
  | nil => simp [Entries.put, h]
  | cons entry rest ih =>
      obtain ⟨l, w⟩ := entry
      by_cases hl : l = key
      · subst hl
        simp [Entries.put, h]
      · simp only [Entries.put, if_neg hl, List.find?_cons, ih]

namespace Node

variable {n m child leaf : Node} {value : Value} {name : String} {names path : List String}

theorem writeAt_cons (h : n.property? name = some child) (value : Value) (names : List String)
    (given : Option Value) :
    n.writeAt value (name :: names) given = .object ((entriesOf given).put name
      (child.writeAt value names (subtree child.attrs (given.bind (·.get? name))))) := by
  rw [writeAt, h]

theorem get?_writeAt (h : n.property? name = some child) (value : Value) (names : List String)
    (given : Option Value) (key : String) :
    (n.writeAt value (name :: names) given).get? key =
      if key = name then
        some (child.writeAt value names (subtree child.attrs (given.bind (·.get? name))))
      else given.bind (·.get? key) := by
  rw [writeAt_cons h, Value.get?, Entries.lookup_put, lookup_entriesOf]

/-- A write below a node leaves a mapping there, which is then what fills it. -/
theorem subtree_writeAt (a : Attributes) (hne : names ≠ []) (given : Option Value) :
    subtree a (some (n.writeAt value names given)) = some (n.writeAt value names given) := by
  cases names with
  | nil => exact absurd rfl hne
  | cons name names => rfl

/-- What fills an object on the way of a write: the same write, on the rest of the path. -/
theorem filling_writeAt {rest : List String} (hd : n.descend names = some m) (hne : rest ≠ [])
    (value : Value) (given : Option Value) :
    filling n (some (n.writeAt value (names ++ rest) given)) names =
      some (m.writeAt value rest (filling n given names)) := by
  induction names generalizing n given with
  | nil =>
      cases hd
      rfl
  | cons name names ih =>
      obtain ⟨child, hchild, hd⟩ := descend_cons.mp hd
      have hne : names ++ rest ≠ [] := by simp [hne]
      rw [filling_cons hchild, filling_cons hchild, Option.bind_some, List.cons_append,
        get?_writeAt hchild, if_pos rfl, subtree_writeAt _ hne, ih hd]

/-- What fills an object that is not on the way of a write stays. -/
theorem filling_writeAt_of_not_prefix (hd : n.descend names = some m)
    (hpath : n.descend path = some leaf) (hl : leaf.isObject = false) (h : ¬names <+: path)
    (value : Value) (given : Option Value) :
    filling n (some (n.writeAt value path given)) names = filling n given names := by
  induction names generalizing n path given with
  | nil => exact absurd List.nil_prefix h
  | cons name names ih =>
      obtain ⟨child, hchild, hd⟩ := descend_cons.mp hd
      cases path with
      | nil =>
          cases hpath
          obtain ⟨a, properties, rfl, -⟩ := isObject_of_property? hchild
          cases hl
      | cons first more =>
          obtain ⟨other, hother, hbelow⟩ := descend_cons.mp hpath
          rw [filling_cons hchild, filling_cons hchild, Option.bind_some, get?_writeAt hother]
          by_cases hname : name = first
          · subst hname
            obtain rfl : other = child := Option.some.inj (hother.symm.trans hchild)
            have hmore : ¬names <+: more := fun hp => h (List.cons_prefix_cons.mpr ⟨rfl, hp⟩)
            -- the path goes on below the child, since an object stands there
            have hne : more ≠ [] := by
              rintro rfl
              cases hbelow
              obtain ⟨rfl, -⟩ := eq_of_descend_leaf hl hd
              exact hmore List.nil_prefix
            rw [if_pos rfl, subtree_writeAt _ hne, ih hd hbelow hmore]
          · rw [if_neg hname]

/-- An object on the way of a write is admitted as before. -/
theorem admission_writeAt (hpath : n.descend path = some leaf) (hne : path ≠ [])
    {given : Option Value} (mapping : IsMapping given) (value : Value) (here : ParamPath) :
    admission n.properties here (some (n.writeAt value path given)) =
      admission n.properties here given := by
  cases path with
  | nil => exact absurd rfl hne
  | cons name names =>
      obtain ⟨child, hchild, -⟩ := descend_cons.mp hpath
      have hdeclared : (n.properties.lookup name).isNone = false := by
        rw [show n.properties.lookup name = some child from hchild]
        rfl
      rw [writeAt_cons hchild]
      simp only [admission, supplied,
        Entries.find?_put (p := fun key => (n.properties.lookup key).isNone) hdeclared]
      cases given with
      | none => rfl
      | some v =>
          obtain ⟨entries, rfl⟩ := mapping v rfl
          simp only [entriesOf]
          cases entries.find? fun entry => (n.properties.lookup entry.1).isNone <;> rfl

/-- A write at the path of a leaf fills every object with a mapping if it was filled by one,
and the object is admitted as before. -/
theorem writeAt_objects (hd : n.descend names = some m) (hm : m.isObject)
    (hpath : n.descend path = some leaf) (hl : leaf.isObject = false) {given : Option Value}
    (mapping : IsMapping (filling n given names)) (value : Value) (here : ParamPath) :
    IsMapping (filling n (some (n.writeAt value path given)) names) ∧
      admission m.properties here (filling n (some (n.writeAt value path given)) names) =
        admission m.properties here (filling n given names) := by
  by_cases hprefix : names <+: path
  · -- the write passes the object and puts an entry with a declared key into it
    obtain ⟨below, rfl⟩ := hprefix
    obtain ⟨k, hk, hbelow⟩ := descend_append.mp hpath
    obtain rfl : k = m := Option.some.inj (hk.symm.trans hd)
    have hne : below ≠ [] := by
      rintro rfl
      cases hbelow
      rw [hl] at hm
      cases hm
    rw [filling_writeAt hd hne, admission_writeAt hbelow hne mapping]
    refine ⟨?_, rfl⟩
    intro v hv
    cases hv
    cases below with
    | nil => exact absurd rfl hne
    | cons first more => exact ⟨_, rfl⟩
  · have same := filling_writeAt_of_not_prefix hd hpath hl hprefix value given
    rw [same]
    exact ⟨mapping, rfl⟩

/-- A write changes the entry of the leaf at its path and of no other leaf. -/
theorem stored_writeAt {other : Node} {key : String}
    (hd : n.descend (names ++ [key]) = some leaf) (hl : leaf.isObject = false)
    (hpath : n.descend path = some other) (ho : other.isObject = false) (value : Value)
    (given : Option Value) :
    stored n (some (n.writeAt value path given)) names key =
      if names ++ [key] = path then some value else stored n given names key := by
  obtain ⟨m, hm, hkey⟩ := descend_append.mp hd
  obtain ⟨child, hchild, hrest⟩ := descend_cons.mp hkey
  cases hrest
  have hobject : m.isObject := by
    obtain ⟨a, properties, rfl, -⟩ := isObject_of_property? hchild
    rfl
  by_cases hprefix : names <+: path
  · obtain ⟨rest, rfl⟩ := hprefix
    obtain ⟨m', hm', hrest⟩ := descend_append.mp hpath
    obtain rfl : m' = m := Option.some.inj (hm'.symm.trans hm)
    cases rest with
    | nil =>
        cases hrest
        rw [ho] at hobject
        cases hobject
    | cons first more =>
        obtain ⟨next, hnext, hmore⟩ := descend_cons.mp hrest
        rw [stored, filling_writeAt hm (List.cons_ne_nil _ _), Option.bind_some,
          get?_writeAt hnext]
        by_cases hfirst : key = first
        · subst hfirst
          obtain rfl : next = leaf := Option.some.inj (hnext.symm.trans hchild)
          obtain ⟨rfl, -⟩ := eq_of_descend_leaf hl hmore
          rw [if_pos rfl, if_pos rfl, writeAt]
        · rw [if_neg hfirst, if_neg (by simp [hfirst])]
          rfl
  · have hne : names ++ [key] ≠ path := fun h => hprefix ⟨[key], h⟩
    rw [stored, filling_writeAt_of_not_prefix hm hpath ho hprefix, if_neg hne]
    rfl

end Node

/-! ## All writes -/

/-- Values that can be written: none is missing, and each belongs to a leaf. -/
def Writable (n : Node) (given : List (List String × Given)) : Prop :=
  ∀ entry ∈ given, entry.2 ≠ .bare ∧
    ∃ leaf, n.descend entry.1 = some leaf ∧ leaf.isObject = false

theorem Given.value?_isSome {given : Given} (h : given ≠ .bare) : ∃ v, given.value? = some v := by
  cases given with
  | bare => exact absurd rfl h
  | single | many => exact ⟨_, rfl⟩

/-- The overlay fills every object with a mapping if the config does, and the object is
admitted as with the config. -/
theorem overlay_objects {n m : Node} {config : Option Value} {given : List (List String × Given)}
    (writable : Writable n given) {names : List String} (hd : n.descend names = some m)
    (hm : m.isObject) (mapping : IsMapping (filling n config names)) (here : ParamPath) :
    IsMapping (filling n (overlay n config given) names) ∧
      admission m.properties here (filling n (overlay n config given) names) =
        admission m.properties here (filling n config names) := by
  induction given with
  | nil => exact ⟨mapping, rfl⟩
  | cons entry rest ih =>
      obtain ⟨path, given⟩ := entry
      obtain ⟨hvalued, leaf, hpath, hl⟩ := writable _ List.mem_cons_self
      obtain ⟨hmapping, hadmitted⟩ := ih fun e he => writable e (List.mem_cons_of_mem _ he)
      obtain ⟨value, hvalue⟩ := Given.value?_isSome hvalued
      simp only [overlay, hvalue]
      rw [← hadmitted]
      exact Node.writeAt_objects hd hm hpath hl hmapping value here

/-- The overlay holds for a leaf what the command line gives to it, else what the
config holds. -/
theorem overlay_stored {n leaf : Node} {config : Option Value}
    {given : List (List String × Given)} (writable : Writable n given) {names : List String}
    {key : String} (hd : n.descend (names ++ [key]) = some leaf) (hl : leaf.isObject = false) :
    stored n (overlay n config given) names key =
      match given.lookup (names ++ [key]) with
      | some g => g.value?
      | none => stored n config names key := by
  induction given with
  | nil => rfl
  | cons entry rest ih =>
      obtain ⟨path, given⟩ := entry
      obtain ⟨hvalued, other, hpath, ho⟩ := writable _ List.mem_cons_self
      have ih := ih fun e he => writable e (List.mem_cons_of_mem _ he)
      obtain ⟨value, hvalue⟩ := Given.value?_isSome hvalued
      simp only [overlay, hvalue]
      rw [Node.stored_writeAt hd hl hpath ho, ih, List.lookup_cons]
      by_cases h : names ++ [key] = path
      · rw [if_pos h, beq_iff_eq.mpr h]
        exact hvalue.symm
      · rw [if_neg h, beq_eq_false_iff_ne.mpr h]

/-! ## Resolution -/

/-- A written value is the raw value that the resolver takes from its flag. -/
theorem rawOfGiven_eq {given : Given} {v : Value} (h : given.value? = some v) (n : Node) :
    rawOfGiven n given = { value := v } := by
  cases given with
  | bare => cases h
  | single | many =>
      cases h
      rfl

namespace Schema

/-- **The command line is an overlay of the config.** Where no flag comes alone and
objects are filled with mappings, resolving tokens against a config is resolving the
overlay without tokens: the same value, the same error, the same effects. -/
theorem resolve_overlay {s : Schema} (built : s.Built) {config : Option Value}
    {tokens : List String} {input : FlagInput} (read : FlagInput.read s.flags tokens = .ok input)
    (valued : ∀ entry ∈ input.entries, entry.2 ≠ .bare)
    (mappings : FilledByMappings s.root config) :
    s.resolve config (some tokens) = s.resolve (overlay s.root config input.entries) none := by
  have writable : Writable s.root input.entries := by
    intro entry hentry
    obtain ⟨f, hf, hpath⟩ := FlagInput.read_paths read entry hentry
    obtain ⟨leaf, name, -, -, hd, hl⟩ := built.flag_leaf hf
    exact ⟨valued entry hentry, leaf, hpath ▸ hd, hl⟩
  have hobject : s.root.isObject := by
    obtain ⟨a, properties, hroot⟩ := built.root_object
    rw [hroot]
    rfl
  have walks : contents (some input) .root s.root.properties config =
      contents (some {}) .root s.root.properties (overlay s.root config input.entries) := by
    refine contents_congr built.distinct hobject ?_ ?_
    · intro names m hd hm here
      exact (overlay_objects writable hd hm (mappings names m hd hm) here).2.symm
    · intro names key leaf hd hl
      have hkeys : (ParamPath.root.below (names ++ [key])).keys = names ++ [key] := by simp
      have hgiven : (some input).bind (·.get? (names ++ [key])) =
          input.entries.lookup (names ++ [key]) := rfl
      have hsilent : (some ({} : FlagInput)).bind (·.get? (names ++ [key])) = none := rfl
      unfold pick
      rw [hkeys, hgiven, hsilent, overlay_stored writable hd hl]
      cases hlookup : input.entries.lookup (names ++ [key]) with
      | none => rfl
      | some g =>
          obtain ⟨v, hv⟩ := Given.value?_isSome (valued _ (mem_of_lookup hlookup))
          simp only [hv, rawOfGiven_eq hv]
  have hempty : FlagInput.read s.flags [] = .ok {} := rfl
  rw [resolve_eq, resolve_eq]
  rw [Option.getD_some, read, Option.getD_none, hempty]
  show s.resolveInput config input = s.resolveInput (overlay s.root config input.entries) {}
  rw [resolveInput_eq, resolveInput_eq, walks]

set_option maxRecDepth 4000 in
/-- A flag below an object that its default fills, a flag for a sequence, and one that
takes the place of an entry. -/
theorem resolve_overlay_training :
    trainingSchema.resolve (some (.object [("data", .null), ("level", .string "low")]))
        (some ["--train", "a", "b", "--level", "7"]) =
      trainingSchema.resolve (some (.object [
        ("data", .object [("mode", .string "slow"), ("train", .array [.string "a", .string "b"])]),
        ("level", .string "7")])) none := by
  have read : FlagInput.read trainingSchema.flags ["--train", "a", "b", "--level", "7"] =
      .ok ⟨[(["data", "train"], .many ["a", "b"]), (["level"], .single "7")]⟩ := by decide +kernel
  have mappings : FilledByMappings trainingRoot
      (some (.object [("data", .null), ("level", .string "low")])) := by
    refine filledByMappings_object (fun v hv => ⟨_, by cases hv; rfl⟩) fun key b below hmem => ?_
    simp only [List.mem_cons, Prod.mk.injEq, Node.object.injEq, reduceCtorEq, and_false,
      List.not_mem_nil, or_false] at hmem
    obtain ⟨rfl, rfl, rfl⟩ := hmem
    refine filledByMappings_object (fun v hv => ⟨_, by cases hv; rfl⟩) fun key b below hmem => ?_
    simp at hmem
  exact resolve_overlay trainingSchema_built read (by simp) mappings

end Schema

end ParamTree
