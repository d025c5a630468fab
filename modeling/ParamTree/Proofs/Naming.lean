import ParamTree.Proofs.Flags
import ParamTree.Proofs.Inheritance

/-!
# Names of flags

The walk over a schema hands a name prefix from object to object and drops it at every
simple tag. `Node.NamedFrom` says by the path alone where a flag's name begins: at the
last property on the path whose node has a simple tag, and at the first where none has
one. `candidates_name` ties the two together. `ofValue_flags` adds which flags there are,
in what order, and that the settings behind their names are those of the document.
-/

namespace ParamTree

namespace Node

/-! ## Where a name begins -/

/-- Does the path lead to a node with a simple tag? -/
def SimpleAt (root : Node) (path : List String) : Prop :=
  ∃ n, root.descend path = some n ∧ n.attrs.simpleTag = true

/-- The properties on a path are counted from one. Is `j` the last of them whose node has
a simple tag, or the first property if none has one? -/
structure NamedFrom (root : Node) (path : List String) (j : Nat) : Prop where
  range : 1 ≤ j ∧ j ≤ path.length
  simple : j = 1 ∨ root.SimpleAt (path.take j)
  last : ∀ i, j < i → i ≤ path.length → ¬root.SimpleAt (path.take i)

/-- The names from the `j`-th property on, joined by dashes. -/
def nameFrom (path : List String) (j : Nat) : String := "-".intercalate (path.drop (j - 1))

variable {root n child : Node} {path : List String} {key : String} {j : Nat}

theorem simpleAt_iff (hd : root.descend path = some n) :
    root.SimpleAt path ↔ n.attrs.simpleTag = true := by
  unfold SimpleAt
  rw [hd]
  simp

/-- A simple tag starts the name anew. -/
theorem namedFrom_simple (hd : root.descend (path ++ [key]) = some child)
    (simple : child.attrs.simpleTag = true) : root.NamedFrom (path ++ [key]) (path.length + 1) where
  range := by simp
  simple := by
    rw [List.take_of_length_le (by simp)]
    exact .inr ((simpleAt_iff hd).mpr simple)
  last i hi hle := by
    rw [List.length_append, List.length_singleton] at hle
    omega

/-- The name at a first property begins there. -/
theorem namedFrom_first (root : Node) (key : String) : root.NamedFrom [key] 1 where
  range := by simp
  simple := .inl rfl
  last i hi hle := by
    rw [List.length_singleton] at hle
    omega

/-- Without a simple tag a name begins where that of the enclosing object does. -/
theorem NamedFrom.extend (h : root.NamedFrom path j) (hd : root.descend (path ++ [key]) = some child)
    (plain : child.attrs.simpleTag = false) : root.NamedFrom (path ++ [key]) j where
  range := ⟨h.range.1, h.range.2.trans (by simp)⟩
  simple := by
    rw [List.take_append_of_le_length h.range.2]
    exact h.simple
  last i hi hle := by
    by_cases hshort : i ≤ path.length
    · rw [List.take_append_of_le_length hshort]
      exact h.last i hi hshort
    · rw [List.take_of_length_le (by simp; omega), simpleAt_iff hd, plain]
      exact Bool.false_ne_true

end Node

namespace Flag

open Node

/-- Is this what the names of the flags below an object start with, where they have no
simple tag? Below the root that is nothing. -/
def LeadAt (root : Node) (path : List String) (lead : String) : Prop :=
  path = [] ∧ lead = "" ∨ ∃ j, root.NamedFrom path j ∧ lead = nameFrom path j ++ "-"

variable {root n child : Node} {path : List String} {lead key : String}

theorem nameFrom_append {j : Nat} (h : root.NamedFrom path j) (key : String) :
    nameFrom (path ++ [key]) j = nameFrom path j ++ "-" ++ key := by
  have hle : j - 1 ≤ path.length := by have := h.range; omega
  have hne : path.drop (j - 1) ≠ [] := by
    have := h.range
    rw [ne_eq, List.drop_eq_nil_iff]
    omega
  rw [nameFrom, nameFrom, List.drop_append_of_le_length hle]
  rw [String.intercalate_append_of_ne_nil hne (by simp), String.intercalate_singleton]

/-- The name of a property follows the rule if the lead does. -/
theorem nameOf_eq (hlead : LeadAt root path lead) (hd : root.descend (path ++ [key]) = some child) :
    ∃ j, root.NamedFrom (path ++ [key]) j ∧ nameOf lead key child = nameFrom (path ++ [key]) j := by
  unfold nameOf
  cases hsimple : child.attrs.simpleTag with
  | true => exact ⟨_, namedFrom_simple hd hsimple, by simp [nameFrom]⟩
  | false =>
      rw [if_neg Bool.false_ne_true]
      rcases hlead with ⟨rfl, rfl⟩ | ⟨j, hj, rfl⟩
      · exact ⟨1, namedFrom_first root key, by simp [nameFrom]⟩
      · exact ⟨j, hj.extend hd hsimple, (nameFrom_append hj key).symm⟩

/-- Every flag below an object is named from where the rule says. -/
theorem candidates_name (distinct : n.Every Node.DistinctKeys) (hd : root.descend path = some n)
    (hlead : LeadAt root path lead) {f : Flag} (hf : f ∈ candidates path lead n.properties) :
    ∃ j, root.NamedFrom f.path j ∧ f.name = nameFrom f.path j := by
  induction n using Node.treeInduction generalizing path lead with
  | object a properties ih =>
      rw [candidates_eq_flatMap, List.mem_flatMap] at hf
      obtain ⟨⟨key, child⟩, hmem, hf⟩ := hf
      have hchild := Node.property?_of_mem distinct.self hmem
      have hbelow : root.descend (path ++ [key]) = some child :=
        descend_append.mpr ⟨_, hd, descend_cons.mpr ⟨child, hchild, rfl⟩⟩
      obtain ⟨j, hj, hname⟩ := nameOf_eq hlead hbelow
      rcases child.leaf_or_object with hleaf | ⟨b, declared, rfl⟩
      · rw [ofProperty_leaf hleaf, List.mem_singleton] at hf
        subst hf
        exact ⟨j, hj, hname⟩
      · rw [ofProperty, hname] at hf
        exact ih _ hmem (distinct.property hmem) hbelow (.inr ⟨j, hj, rfl⟩) hf
  | array | union | scalar =>
      rw [Node.properties, candidates_nil] at hf
      · cases hf
      · simp

end Flag

/-! ## Which flags there are -/

theorem leavesBelow_eq_flatMap (properties : Properties) :
    leavesBelow properties =
      properties.flatMap fun p => p.2.leaves.map fun q => (p.1 :: q.1, q.2) := by
  induction properties with
  | nil => rw [leavesBelow, List.flatMap_nil]
  | cons p rest ih =>
      obtain ⟨key, child⟩ := p
      rw [leavesBelow, List.flatMap_cons, ih]

/-- A leaf is listed with a path exactly if the path leads to it. -/
theorem mem_leaves_iff {n : Node} (distinct : n.Every Node.DistinctKeys) {names : List String}
    {leaf : Node} :
    (names, leaf) ∈ n.leaves ↔ n.descend names = some leaf ∧ leaf.isObject = false := by
  induction n using Node.treeInduction generalizing names with
  | object a properties ih =>
      rw [Node.leaves, leavesBelow_eq_flatMap, List.mem_flatMap]
      constructor
      · rintro ⟨⟨key, child⟩, hmem, h⟩
        obtain ⟨⟨below, m⟩, hbelow, heq⟩ := List.mem_map.mp h
        obtain ⟨rfl, rfl⟩ := Prod.mk.inj heq
        obtain ⟨hd, hl⟩ := (ih _ hmem (distinct.property hmem)).mp hbelow
        have hchild := Node.property?_of_mem distinct.self hmem
        exact ⟨Node.descend_cons.mpr ⟨child, hchild, hd⟩, hl⟩
      · rintro ⟨hd, hl⟩
        cases names with
        | nil =>
            -- the object itself is no leaf
            cases hd
            cases hl
        | cons key below =>
            obtain ⟨child, hchild, hd⟩ := Node.descend_cons.mp hd
            have hmem : (key, child) ∈ properties := mem_of_lookup hchild
            have hbelow := (ih _ hmem (distinct.property hmem)).mpr ⟨hd, hl⟩
            exact ⟨(key, child), hmem, List.mem_map.mpr ⟨_, hbelow, rfl⟩⟩
  | array | union | scalar =>
      rw [Node.leaves, List.mem_singleton, Prod.mk.injEq]
      · constructor
        · rintro ⟨rfl, rfl⟩
          exact ⟨rfl, rfl⟩
        · rintro ⟨hd, -⟩
          exact Node.eq_of_descend_leaf rfl hd
      · simp

namespace Schema

variable {document : Value} {s : Schema}

/-- No flag is listed twice, and no two flags have one path. -/
theorem Built.paths_nodup (h : s.Built) : (s.flags.flags.map Flag.path).Nodup := by
  have once : s.flags.flags.Nodup := by
    refine (List.nodup_flatMap.mp h.admissible.distinct).2.imp ?_
    rintro f _ hd rfl
    exact hd List.mem_cons_self List.mem_cons_self
  exact once.map_on h.unambiguous.path

/-- **The flags of a document.** They are the leaves reached through properties, once each
and in declaration order, depth first. A flag is named from the last simple tag on its path
on, stands under the first property of a longer path, and has the help level of its node;
the settings of all nodes are those of the closest mappings that set them, the implied
elements of an array apart. -/
theorem ofValue_flags (wf : document.WellFormed) (h : ofValue document = .ok s) :
    let flags := s.flags.flags
    (flags.map Flag.path = (leavesBelow s.root.properties).map Prod.fst ∧
        (flags.map Flag.path).Nodup ∧
        ∀ names, names ∈ flags.map Flag.path ↔
          ∃ leaf, s.root.descend names = some leaf ∧ leaf.isObject = false) ∧
      (∀ f ∈ flags, ∃ leaf j, s.root.descend f.path = some leaf ∧ s.root.NamedFrom f.path j ∧
        f = .ofNode leaf f.path (Node.nameFrom f.path j) ∧
        f.group = if 1 < f.path.length then f.path.head? else none) ∧
      ∃ own, document = .object own ∧ Settled [own] s.root := by
  intro flags
  have built : s.Built := ⟨document, wf, h⟩
  obtain ⟨a, properties, hroot⟩ := built.root_object
  have listed : flags = Flag.candidates [] "" s.root.properties :=
    (FlagTable.ofFlags_ok built.flags).1
  have paths : flags.map Flag.path = (leavesBelow s.root.properties).map Prod.fst := by
    have leaves := congrArg (List.map Prod.fst) (Flag.candidates_eq_leaves s.root [] "")
    rw [List.map_map, List.map_map, ← listed] at leaves
    exact leaves
  refine ⟨⟨paths, built.paths_nodup, fun names => ?_⟩, fun f hf => ?_, ?_⟩
  · have below : leavesBelow s.root.properties = s.root.leaves := by
      rw [hroot, Node.leaves, Node.properties]
    rw [paths, below, List.mem_map]
    constructor
    · rintro ⟨⟨_, leaf⟩, hmem, rfl⟩
      exact ⟨leaf, (mem_leaves_iff built.distinct).mp hmem⟩
    · rintro ⟨leaf, hleaf⟩
      exact ⟨(names, leaf), (mem_leaves_iff built.distinct).mpr hleaf, rfl⟩
  · obtain ⟨leaf, name, hflag, -, hd, -⟩ := built.flag_leaf hf
    obtain ⟨j, hj, hname⟩ :=
      Flag.candidates_name built.distinct (Node.descend_nil s.root) (.inl ⟨rfl, rfl⟩) (listed ▸ hf)
    refine ⟨leaf, j, hd, hj, ?_, ?_⟩
    · rw [← hname, hflag]
      rfl
    · rcases hpath : f.path with _ | ⟨first, _ | ⟨second, more⟩⟩ <;> simp [Flag.group, hpath]
  · obtain ⟨own, hown, settled⟩ :=
      buildNode_settled.1 .root {} document [] inEffect_nil s.root (ofValue_ok h).1
    exact ⟨own, hown, settled⟩

/-- A document whose tag style changes twice on the way to a flag. -/
def taggedDocument : Value :=
  .object [("properties", .object [
    ("data", .object [
      ("x-simpletag", .bool false),
      ("properties", .object [
        ("train", .object [("type", .string "string"),
          ("x-help", .number (.integer ⟨1, by decide, by decide⟩))]),
        ("aug", .object [
          ("x-simpletag", .bool true),
          ("properties", .object [
            ("flip", .object [("type", .string "boolean"), ("x-simpletag", .bool false)])])])])])])]

/-- The tree of the document. -/
def taggedRoot : Node :=
  .object {} [
    ("data", .object { simpleTag := false } [
      ("train", .scalar { helpLevel := 1, simpleTag := false } (.typed .string) none),
      ("aug", .object {} [
        ("flip", .scalar { simpleTag := false } (.typed .boolean) none)])])]

/-- The flags of the tree. -/
def taggedFlags : List Flag := [
  { name := "data-train", aliases := [], path := ["data", "train"], typeSummary := "str",
    variadic := false, optionalValue := false, default := none, choices := [], helpLevel := 1,
    description := none },
  { name := "aug-flip", aliases := [], path := ["data", "aug", "flip"], typeSummary := "bool",
    variadic := false, optionalValue := true, default := none, choices := [], helpLevel := 0,
    description := none }]

theorem taggedDocument_ok :
    ofValue taggedDocument = .ok ⟨none, none, taggedRoot, ⟨taggedFlags⟩⟩ := by
  have root : buildNode .root {} taggedDocument = .ok taggedRoot := by
    simp [taggedDocument, buildNode_object, settings, choicesOf, kindOf, kindOfType,
      declaredProperties, buildProperties, List.lookup, attributesOf, actionsOf, entriesOf]
    rfl
  have candidates : Flag.candidates [] "" taggedRoot.properties = taggedFlags := by cbv
  have admitted : FlagTable.ofFlags taggedFlags = .ok ⟨taggedFlags⟩ := by decide +kernel
  have flags := (congrArg FlagTable.ofFlags candidates).trans admitted
  exact ofValue_object_iff.mpr ⟨root, rfl, flags, rfl, rfl⟩

/-- The last flag of the sample is named from its second property on. -/
theorem ofValue_flags_tagged :
    taggedDocument.WellFormed ∧
      (∃ j, taggedRoot.NamedFrom ["data", "aug", "flip"] j ∧
        Node.nameFrom ["data", "aug", "flip"] j = "aug-flip") ∧
      (taggedFlags.map Flag.path).Nodup ∧ taggedFlags.map Flag.group = [some "data", some "data"] := by
  have wf : taggedDocument.WellFormed := by
    simp [taggedDocument, Value.WellFormed, Value.WellFormedEntries]
  obtain ⟨⟨-, once, -⟩, named, -⟩ := ofValue_flags wf taggedDocument_ok
  obtain ⟨leaf, j, -, hj, hname, -⟩ := named taggedFlags[1] (by decide)
  exact ⟨wf, ⟨j, hj, (congrArg Flag.name hname).symm⟩, once, by decide⟩

/-- The mapping of an array that sets a help level and does not describe its elements. -/
def bareArray : Entries :=
  [("type", .string "array"), ("x-help", .number (.integer ⟨2, by decide, by decide⟩))]

/-- A document with the array. -/
def bareArrayDocument : Entries := [("properties", .object [("a", .object bareArray)])]

/-- The array has the help level of its mapping. Its elements stand below that mapping too
and have another one. -/
theorem elements_lose_help :
    ∃ s a items, ofValue (.object bareArrayDocument) = .ok s ∧
      s.root.property? "a" = some (.array a items) ∧
      InEffect [bareArray, bareArrayDocument] a.settings ∧
      ¬InEffect [bareArray, bareArrayDocument] items.attrs.settings := by
  let array : Node := .array { helpLevel := 2 } (.plainScalar .any)
  have root : buildNode .root {} (.object bareArrayDocument) = .ok (.object {} [("a", array)]) := by
    simp [bareArrayDocument, bareArray, buildNode_object, settings, choicesOf, kindOf, kindOfType,
      declaredProperties, buildProperties, List.lookup, attributesOf, actionsOf, entriesOf]
    rfl
  have candidates : Flag.candidates [] "" [("a", array)] = [.ofNode array ["a"] "a"] := by cbv
  have admitted : FlagTable.ofFlags [.ofNode array ["a"] "a"] = .ok ⟨[.ofNode array ["a"] "a"]⟩ := by
    decide +kernel
  refine ⟨⟨none, none, .object {} [("a", array)], ⟨[.ofNode array ["a"] "a"]⟩⟩, { helpLevel := 2 },
    .plainScalar .any, ?_, rfl, ⟨rfl, rfl⟩, ?_⟩
  · simp only [ofValue, root, FlagTable.derive, Node.properties, candidates, bind, Except.bind]
    rw [admitted]
    rfl
  · intro effect
    have level := effect.helpLevel
    cases level

end Schema

end ParamTree
