import Mathlib
import ParamTree.Proofs.Building
import ParamTree.Proofs.Admission

/-!
# The flag table of a tree

`candidates_leaf` ties the path of a flag to the node that the path leads to. So in
the table of a built schema, which holds no tag twice, a tag selects one flag and a
path belongs to one flag (`FlagTable.Unambiguous`). `derive_valid` says which trees
have a table and why the others have none.
-/

namespace ParamTree

/-! ## Leaves -/

mutual

/-- The nodes that are no objects and are reached through properties, depth first, each
with the names that lead to it. -/
def Node.leaves : Node → List (List String × Node)
  | .object _ properties => leavesBelow properties
  | leaf => [([], leaf)]

/-- The leaves below the given properties. -/
def leavesBelow : Properties → List (List String × Node)
  | [] => []
  | (key, child) :: rest => child.leaves.map (fun p => (key :: p.1, p.2)) ++ leavesBelow rest

end

theorem leavesBelow_ne_nil {properties : Properties} {p : List String × Node}
    (h : p ∈ leavesBelow properties) : p.1 ≠ [] := by
  induction properties with
  | nil =>
      rw [leavesBelow] at h
      cases h
  | cons q rest ih =>
      obtain ⟨key, child⟩ := q
      rw [leavesBelow] at h
      rcases List.mem_append.mp h with h | h
      · obtain ⟨q, -, rfl⟩ := List.mem_map.mp h
        exact List.cons_ne_nil _ _
      · exact ih h

namespace Flag

/-! ## Candidates -/

/-- The flags of one property: its own, or those below it. -/
def ofProperty (path : List String) (lead : String) (p : String × Node) : List Flag :=
  match p.2 with
  | .object _ properties => candidates (path ++ [p.1]) (nameOf lead p.1 p.2 ++ "-") properties
  | _ => [ofNode p.2 (path ++ [p.1]) (nameOf lead p.1 p.2)]

theorem candidates_nil (path : List String) (lead : String) : candidates path lead [] = [] := by
  rw [candidates]

theorem candidates_eq_flatMap (path : List String) (lead : String) (properties : Properties) :
    candidates path lead properties = properties.flatMap (ofProperty path lead) := by
  induction properties with
  | nil => rw [candidates_nil, List.flatMap_nil]
  | cons p rest ih =>
      obtain ⟨key, child⟩ := p
      rw [List.flatMap_cons, ← ih]
      cases child with
      | object a properties => rw [candidates, ofProperty]
      | array | union | scalar =>
          rw [candidates, ofProperty]
          all_goals simp

theorem ofProperty_leaf {path : List String} {lead key : String} {leaf : Node}
    (h : leaf.isObject = false) :
    ofProperty path lead (key, leaf) = [ofNode leaf (path ++ [key]) (nameOf lead key leaf)] := by
  cases leaf with
  | object => cases h
  | array | union | scalar => rfl

/-- The candidates for the table are the leaves, in order, each with its further tags. -/
theorem candidates_eq_leaves (n : Node) (path : List String) (lead : String) :
    (candidates path lead n.properties).map (fun f => (f.path, f.aliases)) =
      (leavesBelow n.properties).map fun p => (path ++ p.1, p.2.attrs.aliases) := by
  induction n using Node.treeInduction generalizing path lead with
  | object a properties ih =>
      rw [Node.properties]
      -- along the properties, with the hypothesis for each child that is an object
      induction properties with
      | nil => rw [candidates_nil, leavesBelow, List.map_nil, List.map_nil]
      | cons p rest ihRest =>
          obtain ⟨key, child⟩ := p
          have below := ihRest fun q hq => ih q (List.mem_cons_of_mem _ hq)
          rw [candidates_eq_flatMap, List.flatMap_cons, ← candidates_eq_flatMap, List.map_append,
            below, leavesBelow, List.map_append]
          congr 1
          rcases child.leaf_or_object with hleaf | ⟨b, declared, rfl⟩
          · have own : child.leaves = [([], child)] := by
              cases child with
              | object => cases hleaf
              | array | union | scalar => rw [Node.leaves]; simp
            rw [ofProperty_leaf hleaf, own]
            rfl
          · have own := ih _ List.mem_cons_self (path ++ [key])
              (nameOf lead key (.object b declared) ++ "-")
            rw [Node.leaves]
            simpa [ofProperty, Function.comp_def, Node.properties] using own
  | array | union | scalar =>
      rw [Node.properties, candidates_nil, leavesBelow, List.map_nil, List.map_nil]
      simp

/-- The flag of a property leads on from the property and describes the node that
it leads to, which is no object. -/
theorem candidates_leaf {n : Node} (distinct : n.Every Node.DistinctKeys) {path : List String}
    {lead : String} {f : Flag} (hf : f ∈ candidates path lead n.properties) :
    ∃ names leaf name, names ≠ [] ∧ f = ofNode leaf (path ++ names) name ∧
      n.descend names = some leaf ∧ leaf.isObject = false := by
  induction n using Node.treeInduction generalizing path lead with
  | object a properties ih =>
      rw [candidates_eq_flatMap, List.mem_flatMap] at hf
      obtain ⟨⟨key, child⟩, hmem, hf⟩ := hf
      have hchild := Node.property?_of_mem distinct.self hmem
      rcases child.leaf_or_object with hleaf | ⟨b, below, rfl⟩
      · rw [ofProperty_leaf hleaf, List.mem_singleton] at hf
        exact ⟨[key], child, nameOf lead key child, by simp, hf,
          Node.descend_cons.mpr ⟨child, hchild, rfl⟩, hleaf⟩
      · obtain ⟨names, leaf, name, -, rfl, hd, hl⟩ := ih _ hmem (distinct.property hmem) hf
        refine ⟨key :: names, leaf, name, by simp, by simp, ?_, hl⟩
        exact Node.descend_cons.mpr ⟨_, hchild, hd⟩
  | array | union | scalar =>
      rw [Node.properties, candidates_nil] at hf
      · cases hf
      · simp

/-- Two flags of one tree do not share a path. -/
theorem candidates_path_inj {n : Node} (distinct : n.Every Node.DistinctKeys) {path : List String}
    {lead : String} {f g : Flag} (hf : f ∈ candidates path lead n.properties)
    (hg : g ∈ candidates path lead n.properties) (h : f.path = g.path) : f = g := by
  induction n using Node.treeInduction generalizing path lead with
  | object a properties ih =>
      rw [candidates_eq_flatMap, List.mem_flatMap] at hf hg
      obtain ⟨⟨k, child⟩, hk, hf⟩ := hf
      obtain ⟨⟨l, other⟩, hl, hg⟩ := hg
      -- a flag of a property has the property's name after `path`
      have first : ∀ key m (e : Flag), (key, m) ∈ properties → e ∈ ofProperty path lead (key, m) →
          ∃ more, e.path = path ++ key :: more := by
        intro key m e hm he
        rcases m.leaf_or_object with hleaf | ⟨b, below, rfl⟩
        · rw [ofProperty_leaf hleaf, List.mem_singleton] at he
          exact ⟨[], by rw [he]; rfl⟩
        · obtain ⟨names, leaf, name, -, rfl, -, -⟩ := candidates_leaf (distinct.property hm) he
          exact ⟨names, by simp [ofNode]⟩
      obtain ⟨more, hfpath⟩ := first k child f hk hf
      obtain ⟨rest, hgpath⟩ := first l other g hl hg
      rw [hfpath, hgpath, List.append_cancel_left_eq, List.cons.injEq] at h
      obtain rfl := h.1
      have same : child = other := by
        have hc := Node.property?_of_mem distinct.self hk
        rw [Node.property?_of_mem distinct.self hl] at hc
        exact (Option.some.inj hc).symm
      subst same
      rcases child.leaf_or_object with hleaf | ⟨b, below, rfl⟩
      · rw [ofProperty_leaf hleaf, List.mem_singleton] at hf hg
        rw [hf, hg]
      · exact ih _ hk (distinct.property hk) hf hg
  | array | union | scalar =>
      rw [Node.properties, candidates_nil] at hf
      · cases hf
      · simp

end Flag

namespace FlagTable

/-! ## Unambiguous tables -/

/-- A tag selects one flag, and a path belongs to one flag. -/
structure Unambiguous (t : FlagTable) : Prop where
  tag : ∀ f ∈ t.flags, ∀ g ∈ t.flags, ∀ tag, tag ∈ f.tags → tag ∈ g.tags → f = g
  path : ∀ f ∈ t.flags, ∀ g ∈ t.flags, f.path = g.path → f = g

theorem Unambiguous.find?_iff {t : FlagTable} (h : t.Unambiguous) {tag : String} {f : Flag} :
    t.find? tag = some f ↔ f ∈ t.flags ∧ tag ∈ f.tags :=
  FlagTable.find?_iff h.tag

end FlagTable

namespace Schema.Built

variable {s : Schema}

/-- The flags are the candidates of the tree, in order. -/
theorem flags_eq (h : s.Built) : s.flags.flags = Flag.candidates [] "" s.root.properties :=
  (FlagTable.ofFlags_ok h.flags).1

theorem admissible (h : s.Built) : FlagTable.Admissible s.flags.flags := by
  have made : FlagTable.Admissible ([] ++ Flag.candidates [] "" s.root.properties) :=
    (FlagTable.insertAll_ok_iff FlagTable.admissible_nil).mp ⟨_, h.flags⟩
  rwa [List.nil_append, ← h.flags_eq] at made

theorem unambiguous (h : s.Built) : s.flags.Unambiguous := by
  constructor
  · exact FlagTable.eq_of_shared_tag h.admissible.distinct
  · rw [h.flags_eq]
    exact fun f hf g hg => Flag.candidates_path_inj h.distinct hf hg

/-- The node of a flag: its path leads there, it is no object, and the flag
describes it. -/
theorem flag_leaf (h : s.Built) {f : Flag} (hf : f ∈ s.flags.flags) :
    ∃ leaf name, f = .ofNode leaf f.path name ∧ f.path ≠ [] ∧
      s.root.descend f.path = some leaf ∧ leaf.isObject = false := by
  rw [h.flags_eq] at hf
  obtain ⟨names, leaf, name, hne, rfl, hd, hl⟩ := Flag.candidates_leaf h.distinct hf
  exact ⟨leaf, name, rfl, hne, hd, hl⟩

end Schema.Built

/-! ## A sample -/

namespace Schema

/-- A document with an object that has a default, a sequence that wraps what is
none, an enumeration and a union. -/
def trainingDocument : Value :=
  .object [("properties", .object [
    ("data", .object [
      ("default", .object [("mode", .string "slow")]),
      ("properties", .object [
        ("train", .object [("type", .string "array"), ("items", .object [("type", .string "string")]),
          ("x-action", .string "MakeList")]),
        ("mode", .object [("enum", .array [.string "fast", .string "slow"]),
          ("default", .string "fast")])])]),
    ("level", .object [("type", .array [.string "integer", .string "string"]),
      ("default", .string "low")]),
    ("verbose", .object [("type", .string "boolean"), ("default", .bool false)])])]

/-- The tree of the document. -/
def trainingRoot : Node :=
  .object {} [
    ("data", .object { default := some (.object [("mode", .string "slow")]) } [
      ("train", .array { actions := [.makeList] } (.plainScalar (.typed .string))),
      ("mode", .scalar { default := some (.string "fast") } .any
        (some [.string "fast", .string "slow"]))]),
    ("level", .union { default := some (.string "low") }
      [.plainScalar (.typed .integer), .plainScalar (.typed .string)]),
    ("verbose", .scalar { default := some (.bool false) } (.typed .boolean) none)]

/-- The flags of the tree. -/
def trainingFlags : List Flag := [
  { name := "train", aliases := [], path := ["data", "train"], typeSummary := "[str] ...",
    variadic := true, optionalValue := false, default := none, choices := [], helpLevel := 0,
    description := none },
  { name := "mode", aliases := [], path := ["data", "mode"], typeSummary := "any",
    variadic := false, optionalValue := false, default := some "fast",
    choices := ["fast", "slow"], helpLevel := 0, description := none },
  { name := "level", aliases := [], path := ["level"], typeSummary := "any",
    variadic := false, optionalValue := false, default := some "low", choices := [],
    helpLevel := 0, description := none },
  { name := "verbose", aliases := [], path := ["verbose"], typeSummary := "bool",
    variadic := false, optionalValue := true, default := some "false", choices := [],
    helpLevel := 0, description := none }]

/-- The schema of the document. -/
def trainingSchema : Schema := ⟨none, none, trainingRoot, ⟨trainingFlags⟩⟩

set_option maxRecDepth 4000 in
theorem trainingSchema_built : trainingSchema.Built := by
  have root : buildNode .root {} trainingDocument = .ok trainingRoot := by cbv
  have candidates : Flag.candidates [] "" trainingRoot.properties = trainingFlags := by cbv
  have admitted : FlagTable.ofFlags trainingFlags = .ok ⟨trainingFlags⟩ := by decide +kernel
  refine ⟨trainingDocument, ?_, ofValue_object_iff.mpr ⟨root, rfl, ?_, rfl, rfl⟩⟩
  · simp [trainingDocument, Value.WellFormed, Value.WellFormedEntries, Value.WellFormedItems]
  · exact (congrArg FlagTable.ofFlags candidates).trans admitted

/-- A config that leaves the mode to the default of the object. -/
def trainingConfig : Value :=
  .object [("data", .object [("train", .string "a")]), ("level", .string "7")]

/-- Tokens in which one flag occurs twice and one comes alone. -/
def trainingTokens : List String := ["--mode", "fast", "--verbose", "--mode", "slow"]

/-- What the sample resolves to: a text became a sequence, another an integer. -/
def trainingOutput : Value :=
  .object [
    ("data", .object [("train", .array [.string "a"]), ("mode", .string "slow")]),
    ("level", .number (.integer ⟨7, by decide, by decide⟩)),
    ("verbose", .bool true)]

theorem trainingSchema_run :
    (trainingSchema.resolve (some trainingConfig) (some trainingTokens)).run (.bare []) =
      .ok trainingOutput (.bare []) := by cbv

end Schema

/-! ## Which trees have a table -/

namespace FlagTable

/-- **The table of a tree, exactly.** Its flags are those of the leaves. They make a table
exactly if they are admissible; look-up then finds each flag under its tags and nothing
else. Otherwise the error is the violation of the first flag that has one, at the first of
its tags that is at fault. -/
theorem derive_valid (root : Node) :
    let flags := Flag.candidates [] "" root.properties
    (flags.map (fun f => (f.path, f.aliases)) =
        (leavesBelow root.properties).map fun p => (p.1, p.2.attrs.aliases)) ∧
      (∀ f ∈ flags, f.paramPath.text = f.dottedPath) ∧
      ((∃ t, derive root = .ok t) ↔ Admissible flags) ∧
      (∀ t, derive root = .ok t → t.flags = flags ∧
        (∀ tag f, t.find? tag = some f ↔ f ∈ flags ∧ tag ∈ f.tags) ∧
        ∀ tag, t.isTag tag = true ↔ ∃ f, t.find? tag = some f) ∧
      ∀ e, derive root = .error e ↔ FirstFault FlagViolation flags e := by
  intro flags
  have leaves : flags.map (fun f => (f.path, f.aliases)) =
      (leavesBelow root.properties).map fun p => (p.1, p.2.attrs.aliases) :=
    Flag.candidates_eq_leaves root [] ""
  refine ⟨leaves, ?_, insertAll_ok_iff admissible_nil, ?_, ?_⟩
  · intro f hf
    have hmem := List.mem_map_of_mem (f := fun f : Flag => (f.path, f.aliases)) hf
    rw [leaves] at hmem
    obtain ⟨p, hp, heq⟩ := List.mem_map.mp hmem
    have path : f.path = p.1 := (congrArg Prod.fst heq).symm
    exact ParamPath.text_ofKeys (path ▸ leavesBelow_ne_nil hp)
  · intro t ht
    obtain ⟨hflags, distinct⟩ := ofFlags_ok ht
    rw [← hflags] at distinct
    refine ⟨hflags, fun tag f => ?_, fun tag => ?_⟩
    · rw [find?_iff (eq_of_shared_tag distinct), hflags]
    · rw [isTag, Option.isSome_iff_exists]
  · intro e
    exact insertAll_error_iff admissible_nil

def clashingSeed : Node := .scalar { aliases := ["-s", "--level"] } (.typed .integer) none

def clashingLevel : Node := .scalar {} (.typed .integer) none

/-- A tree in which a further tag of the first flag is the primary tag of the second. -/
def clashingRoot : Node := .object {} [("seed", clashingSeed), ("level", clashingLevel)]

/-- The sample tree makes a table, in which a tag selects its flag. The clashing one fails
at the second flag, and the error names the first as the owner of the tag. -/
theorem derive_valid_training :
    Admissible (Flag.candidates [] "" Schema.trainingRoot.properties) ∧
      (∃ t f, derive Schema.trainingRoot = .ok t ∧ t.find? "--mode" = some f ∧
        f.path = ["data", "mode"]) ∧
      FirstFault FlagViolation (Flag.candidates [] "" clashingRoot.properties)
        ⟨.ofKeys ["level"], .duplicateFlag "--level" (.ofKeys ["seed"])⟩ := by
  obtain ⟨-, -, admitted, found, -⟩ := derive_valid Schema.trainingRoot
  obtain ⟨-, -, -, -, refused⟩ := derive_valid clashingRoot
  have derived : derive Schema.trainingRoot = .ok ⟨Schema.trainingFlags⟩ :=
    Schema.trainingSchema_built.flags
  obtain ⟨hflags, hfind, -⟩ := found _ derived
  refine ⟨admitted.mp ⟨_, derived⟩, ⟨_, Schema.trainingFlags[1], derived, ?_, rfl⟩, ?_⟩
  · rw [hfind, ← hflags]
    decide
  · have candidates : Flag.candidates [] "" clashingRoot.properties =
        [.ofNode clashingSeed ["seed"] "seed", .ofNode clashingLevel ["level"] "level"] := by
      simp [clashingRoot, Node.properties, Flag.candidates, clashingSeed, clashingLevel, Flag.nameOf]
    rw [← refused, derive, candidates]
    decide +kernel

end FlagTable

end ParamTree
