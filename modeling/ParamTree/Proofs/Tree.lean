import ParamTree.Resolve.Basic

/-!
# Trees of nodes and values

What stands in the tree of a node (`Node.Contains`), what holds of every node of a
tree (`Node.Every`), and where a list of property names leads in a schema and in a
value (`descend`). `Node.treeInduction` is the induction that later proofs about
whole trees use; it has one case for each kind of node.
-/

namespace ParamTree

/-! ## Look-up in lists of pairs -/

theorem lookup_of_mem {α : Type} {l : List (String × α)} {key : String} {x : α}
    (distinct : (l.map Prod.fst).Nodup) (h : (key, x) ∈ l) : l.lookup key = some x := by
  obtain ⟨before, after, rfl⟩ := List.append_of_mem h
  rw [List.lookup_eq_some_iff]
  refine ⟨before, after, rfl, ?_⟩
  intro p hp
  simp only [List.map_append, List.map_cons, List.nodup_append, List.mem_map] at distinct
  have hne : p.1 ≠ key := distinct.2.2 p.1 ⟨p, hp, rfl⟩ key List.mem_cons_self
  simpa using fun e : key = p.1 => hne e.symm

theorem mem_of_lookup {κ α : Type} [BEq κ] [LawfulBEq κ] {l : List (κ × α)} {key : κ} {x : α}
    (h : l.lookup key = some x) : (key, x) ∈ l := by
  obtain ⟨before, after, rfl, -⟩ := List.lookup_eq_some_iff.mp h
  simp

theorem lookup_isSome_iff_mem {α : Type} {l : List (String × α)} {key : String} :
    (l.lookup key).isSome ↔ key ∈ l.map Prod.fst := by
  rw [List.lookup_isSome_iff, List.mem_map]
  constructor
  · rintro ⟨p, hp, h⟩
    exact ⟨p, hp, (beq_iff_eq.mp h).symm⟩
  · rintro ⟨p, hp, h⟩
    exact ⟨p, hp, beq_iff_eq.mpr h.symm⟩

/-- Leaving out entries by their keys hides these keys alone. -/
theorem lookup_filter {α : Type} (p : String → Bool) (l : List (String × α)) (key : String) :
    (l.filter fun entry => p entry.1).lookup key = if p key then l.lookup key else none := by
  induction l with
  | nil => cases p key <;> rfl
  | cons entry rest ih =>
      obtain ⟨k, x⟩ := entry
      rw [List.filter_cons]
      by_cases hkey : key = k
      · subst hkey
        cases hp : p key with
        | true => simp
        | false => simp [ih, hp]
      · cases hk : p k with
        | true => simp [List.lookup_cons, beq_false_of_ne hkey, ih]
        | false => simp [List.lookup_cons, beq_false_of_ne hkey, ih]

namespace Node

/-! ## Nodes of a tree -/

/-- `n.Contains m`: the node `m` is `n` or stands below it. -/
inductive Contains : Node → Node → Prop
  | refl (n) : Contains n n
  | property {a properties key child m} : (key, child) ∈ properties → Contains child m →
      Contains (.object a properties) m
  | items {a items m} : Contains items m → Contains (.array a items) m
  | alternative {a alternatives n m} : n ∈ alternatives → Contains n m →
      Contains (.union a alternatives) m

/-- Does `P` hold of the node and of all nodes below it? -/
def Every (P : Node → Prop) (n : Node) : Prop := ∀ m, n.Contains m → P m

variable {P : Node → Prop}

theorem Every.self {n : Node} (h : n.Every P) : P n := h n (.refl n)

theorem Every.imp {Q : Node → Prop} {n : Node} (h : n.Every P) (hPQ : ∀ m, P m → Q m) :
    n.Every Q := fun m hm => hPQ m (h m hm)

theorem Every.property {a : Attributes} {properties : Properties} {key : String} {child : Node}
    (h : (Node.object a properties).Every P) (hc : (key, child) ∈ properties) : child.Every P :=
  fun m hm => h m (.property hc hm)

theorem Every.items {a : Attributes} {items : Node} (h : (Node.array a items).Every P) :
    items.Every P := fun m hm => h m (.items hm)

theorem Every.alternative {a : Attributes} {alternatives : List Node} {n : Node}
    (h : (Node.union a alternatives).Every P) (hn : n ∈ alternatives) : n.Every P :=
  fun m hm => h m (.alternative hn hm)

@[simp] theorem every_object {a : Attributes} {properties : Properties} :
    (Node.object a properties).Every P ↔
      P (.object a properties) ∧ ∀ p ∈ properties, p.2.Every P := by
  constructor
  · intro h
    exact ⟨h.self, fun _ hp => h.property hp⟩
  · rintro ⟨hself, hbelow⟩ m hm
    cases hm with
    | refl => exact hself
    | property hc hm => exact hbelow _ hc m hm

@[simp] theorem every_array {a : Attributes} {items : Node} :
    (Node.array a items).Every P ↔ P (.array a items) ∧ items.Every P := by
  constructor
  · intro h
    exact ⟨h.self, h.items⟩
  · rintro ⟨hself, hbelow⟩ m hm
    cases hm with
    | refl => exact hself
    | items hm => exact hbelow m hm

@[simp] theorem every_union {a : Attributes} {alternatives : List Node} :
    (Node.union a alternatives).Every P ↔
      P (.union a alternatives) ∧ ∀ n ∈ alternatives, n.Every P := by
  constructor
  · intro h
    exact ⟨h.self, fun _ hn => h.alternative hn⟩
  · rintro ⟨hself, hbelow⟩ m hm
    cases hm with
    | refl => exact hself
    | alternative hn hm => exact hbelow _ hn m hm

@[simp] theorem every_scalar {a : Attributes} {type : Primitive} {choices : Option (List Value)} :
    (Node.scalar a type choices).Every P ↔ P (.scalar a type choices) := by
  constructor
  · exact Every.self
  · intro hself m hm
    cases hm
    exact hself

/-- Induction over a tree: what holds of a node as soon as it holds of its
properties, items or alternatives holds of every node. -/
@[elab_as_elim]
theorem treeInduction {motive : Node → Prop}
    (object : ∀ a properties, (∀ p ∈ properties, motive p.2) → motive (.object a properties))
    (array : ∀ a items, motive items → motive (.array a items))
    (union : ∀ a alternatives, (∀ n ∈ alternatives, motive n) → motive (.union a alternatives))
    (scalar : ∀ a type choices, motive (.scalar a type choices)) (n : Node) : motive n := by
  -- the properties and the alternatives are lists of trees, with a motive for each list
  refine Node.rec (motive_1 := motive) (motive_2 := fun ps => ∀ p ∈ ps, motive p.2)
    (motive_3 := fun ns => ∀ n ∈ ns, motive n) (motive_4 := fun p => motive p.2)
    object array union scalar ?_ ?_ ?_ ?_ ?_ n
  · intro p hp
    cases hp
  · intro head tail hhead htail p hp
    rcases List.mem_cons.mp hp with rfl | hp
    · exact hhead
    · exact htail p hp
  · intro m hm
    cases hm
  · intro head tail hhead htail m hm
    rcases List.mem_cons.mp hm with rfl | hm
    · exact hhead
    · exact htail m hm
  · intro key child h
    exact h

/-! ## Property paths -/

/-- The node that a list of property names leads to. -/
def descend (n : Node) : List String → Option Node
  | [] => some n
  | name :: names => (n.property? name).bind fun child => child.descend names

@[simp] theorem descend_nil (n : Node) : n.descend [] = some n := rfl

theorem descend_cons {n : Node} {name : String} {names : List String} {m : Node} :
    n.descend (name :: names) = some m ↔
      ∃ child, n.property? name = some child ∧ child.descend names = some m := by
  rw [descend, Option.bind_eq_some_iff]

/-- A walk over properties ends at a node or goes on below it. -/
theorem leaf_or_object (n : Node) : n.isObject = false ∨ ∃ a properties, n = .object a properties := by
  cases n with
  | object a properties => exact .inr ⟨a, properties, rfl⟩
  | array | union | scalar => exact .inl rfl

theorem properties_of_leaf {n : Node} (h : n.isObject = false) : n.properties = [] := by
  cases n with
  | object => cases h
  | array | union | scalar => rfl

/-- Only objects are passed on the way to a node. -/
theorem isObject_of_property? {n : Node} {name : String} {child : Node}
    (h : n.property? name = some child) : ∃ a properties, n = .object a properties ∧
      (name, child) ∈ properties := by
  cases n with
  | object a properties => exact ⟨a, properties, rfl, mem_of_lookup h⟩
  | array | union | scalar => cases h

/-- A path goes on below objects alone. -/
theorem object_of_descend {n m : Node} {names : List String} (hne : names ≠ [])
    (h : n.descend names = some m) : ∃ a properties, n = .object a properties := by
  cases names with
  | nil => exact absurd rfl hne
  | cons name names =>
      obtain ⟨child, hchild, -⟩ := descend_cons.mp h
      obtain ⟨a, properties, rfl, -⟩ := isObject_of_property? hchild
      exact ⟨a, properties, rfl⟩

/-- Nothing stands below a leaf. -/
theorem eq_of_descend_leaf {n m : Node} {names : List String} (hn : n.isObject = false)
    (h : n.descend names = some m) : names = [] ∧ m = n := by
  cases names with
  | nil =>
      cases h
      exact ⟨rfl, rfl⟩
  | cons name names =>
      obtain ⟨a, properties, rfl⟩ := object_of_descend (List.cons_ne_nil _ _) h
      cases hn

theorem descend_append {n m : Node} {names more : List String} :
    n.descend (names ++ more) = some m ↔
      ∃ k, n.descend names = some k ∧ k.descend more = some m := by
  induction names generalizing n with
  | nil => simp
  | cons name names ih =>
      rw [List.cons_append, descend_cons]
      constructor
      · rintro ⟨child, hchild, h⟩
        obtain ⟨k, hk, hm⟩ := ih.mp h
        exact ⟨k, descend_cons.mpr ⟨child, hchild, hk⟩, hm⟩
      · rintro ⟨k, hk, hm⟩
        obtain ⟨child, hchild, hrest⟩ := descend_cons.mp hk
        exact ⟨child, hchild, ih.mpr ⟨k, hrest, hm⟩⟩

/-- What holds everywhere below a node holds everywhere below the nodes that it leads to. -/
theorem Every.descend {P : Node → Prop} {n m : Node} {names : List String} (h : n.Every P)
    (hd : n.descend names = some m) : m.Every P := by
  induction names generalizing n with
  | nil =>
      cases hd
      exact h
  | cons name names ih =>
      obtain ⟨child, hchild, hrest⟩ := descend_cons.mp hd
      obtain ⟨a, properties, rfl, hmem⟩ := isObject_of_property? hchild
      exact ih (h.property hmem) hrest

/-- Is no property declared twice? -/
def DistinctKeys (n : Node) : Prop := (n.properties.map Prod.fst).Nodup

/-- With distinct keys a declared property is found under its name. -/
theorem property?_of_mem {a : Attributes} {properties : Properties} {key : String} {child : Node}
    (h : (Node.object a properties).DistinctKeys) (hc : (key, child) ∈ properties) :
    (Node.object a properties).property? key = some child := lookup_of_mem h hc

end Node

namespace Value

theorem isNull_iff {v : Value} : v.isNull = true ↔ v = .null := by
  cases v <;> simp [isNull]

/-- What a mapping holds under a key. -/
def get? (key : String) : Value → Option Value
  | .object entries => entries.lookup key
  | _ => none

/-- The value that a list of keys leads to. -/
def descend (v : Value) : List String → Option Value
  | [] => some v
  | key :: keys => (v.get? key).bind fun w => w.descend keys

theorem descend_cons {v w : Value} {key : String} {keys : List String} :
    v.descend (key :: keys) = some w ↔ ∃ u, v.get? key = some u ∧ u.descend keys = some w := by
  rw [descend, Option.bind_eq_some_iff]

end Value

/-! ## Paths below a path -/

namespace ParamPath

/-- The path that leads through property names from a path on. -/
def below (p : ParamPath) (names : List String) : ParamPath := ⟨p.segments ++ names.map .key⟩

@[simp] theorem below_nil (p : ParamPath) : p.below [] = p := by simp [below]

@[simp] theorem below_key (p : ParamPath) (name : String) (names : List String) :
    (p.key name).below names = p.below (name :: names) := by simp [below, key]

@[simp] theorem root_below (names : List String) : root.below names = .ofKeys names := rfl

@[simp] theorem keys_ofKeys (names : List String) : (ofKeys names).keys = names := by
  induction names with
  | nil => rfl
  | cons name names ih => exact congrArg (List.cons name) ih

/-- The text of a property path is its names with points between them. -/
theorem text_ofKeys {names : List String} (h : names ≠ []) : (ofKeys names).text = dotted names := by
  obtain ⟨name, names, rfl⟩ := List.exists_cons_of_ne_nil h
  simp only [text, ofKeys, List.map_cons, dotted, List.map_map]
  induction names generalizing name with
  | nil => simp [String.join]
  | cons next rest ih =>
      rw [String.intercalate_cons_cons, ← ih next (List.cons_ne_nil _ _)]
      simp [segmentText, String.join_cons, String.append_assoc]

end ParamPath

end ParamTree
