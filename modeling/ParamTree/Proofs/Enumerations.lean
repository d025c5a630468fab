import Mathlib
import ParamTree.Proofs.Building

/-!
# Enumerations of a document

`Describes` follows a document and the tree that it describes side by side, through
properties, items and listed alternatives. Each mapping that is met was built as the node
beside it (`Describes.built`), and `buildNode_enum` says where its enumeration has gone: it
stays with a scalar, or it is with the scalars among the alternatives of a list of type
names. Every other node with an enumeration is refused, but for one gap: a list of type
names without a scalar leaves nothing that could carry it, and it is dropped.
-/

namespace ParamTree

/-- Is this a scalar that is limited to the literals? -/
def Node.LimitedTo (choices : List Value) (n : Node) : Prop :=
  ∃ a type, n = .scalar a type (some choices)

/-- Does the node carry the literals, itself or by one of its alternatives? -/
def Node.Carries (choices : List Value) (n : Node) : Prop :=
  n.LimitedTo choices ∨
    ∃ a alternatives, n = .union a alternatives ∧ ∃ m ∈ alternatives, m.LimitedTo choices

theorem Node.carries_union {choices : List Value} {a : Attributes} {alternatives : List Node} :
    (Node.union a alternatives).Carries choices ↔ ∃ m ∈ alternatives, m.LimitedTo choices := by
  constructor
  · rintro (⟨_, _, ⟨⟩⟩ | ⟨_, _, ⟨⟩, limited⟩)
    exact limited
  · intro limited
    exact .inr ⟨a, alternatives, rfl, limited⟩

theorem Kind.limitedTo_toNode {kind : Kind} {literals : List Value} {a : Attributes}
    {choices : Option (List Value)} :
    (kind.toNode a choices).LimitedTo literals ↔ kind.isScalar = true ∧ choices = some literals := by
  cases kind <;> simp [Node.LimitedTo, toNode, isScalar]

namespace Schema

/-! ## Mappings and their nodes -/

/-- `Part own n own' n'`: under `properties` or `items` the mapping `own` holds the mapping
`own'`, in the place where `n'` stands in `n`. -/
inductive Part (own : Entries) : Node → Entries → Node → Prop
  | property {a properties declared key own' n'}
      (keyword : own.lookup "properties" = some (.object declared))
      (place : ((key, n'), (key, .object own')) ∈ properties.zip declared) :
      Part own (.object a properties) own' n'
  | items {a own' n'} (keyword : own.lookup "items" = some (.object own')) :
      Part own (.array a n') own' n'

/-- `Child own n own' n'`: the mapping `own` of the node `n` holds the mapping `own'` of the
node `n'` that stands directly below. -/
inductive Child (own : Entries) : Node → Entries → Node → Prop
  | part {n own' n'} (h : Part own n own' n') : Child own n own' n'
  | alternative {a alternatives listed own' n'}
      (keyword : own.lookup "oneOf" = some (.array listed))
      (place : (n', .object own') ∈ alternatives.zip listed) :
      Child own (.union a alternatives) own' n'
  /-- The alternatives of a list of type names have one mapping in common. -/
  | named {a alternatives n own' n'} (noUnion : own.lookup "oneOf" = none)
      (hn : n ∈ alternatives) (h : Part own n own' n') :
      Child own (.union a alternatives) own' n'

/-- `Describes document root own n`: somewhere in the document, which describes `root`, the
mapping `own` describes the node `n`. -/
inductive Describes (document : Entries) (root : Node) : Entries → Node → Prop
  | root : Describes document root document root
  | step {own n own' n'} (h : Describes document root own n) (child : Child own n own' n') :
      Describes document root own' n'

/-- Is the mapping built as the node, wherever that is? -/
def BuiltAs (own : Entries) (n : Node) : Prop :=
  ∃ path inherited, buildNode path inherited (.object own) = .ok n

/-- Does the mapping list type names, and none of a scalar? -/
def NamesNoScalar (own : Entries) : Prop :=
  ∃ names, own.lookup "type" = some (.array names) ∧
    ∀ name ∈ names, name = .string "object" ∨ name = .string "array"

variable {path : ParamPath} {inherited here : Inherited} {own own' document : Entries}
  {n n' root : Node} {kind : Kind} {name : String} {choices : Option (List Value)}

/-! ## Every mapping is built -/

theorem buildProperties_zip {declared : Entries} {ps : Properties}
    (h : buildProperties path here declared = .ok ps) :
    ∀ p ∈ ps.zip declared, buildNode (path.key p.2.1) here p.2.2 = .ok p.1.2 := by
  induction declared generalizing ps with
  | nil => simp
  | cons entry rest ih =>
      rw [buildProperties] at h
      obtain ⟨node, hnode, h⟩ := except_bind_ok.mp h
      obtain ⟨nodes, hnodes, h⟩ := except_bind_ok.mp h
      obtain rfl := except_pure_ok.mp h
      rw [List.zip_cons_cons]
      exact List.forall_mem_cons.mpr ⟨hnode, ih hnodes⟩

theorem buildAlternatives_zip {i : Nat} {listed : List Value} {ns : List Node}
    (h : buildAlternatives path here i listed = .ok ns) :
    ∀ p ∈ ns.zip listed, ∃ j, buildNode (path.index j) here p.2 = .ok p.1 := by
  induction listed generalizing i ns with
  | nil => simp
  | cons value rest ih =>
      rw [buildAlternatives] at h
      obtain ⟨node, hnode, h⟩ := except_bind_ok.mp h
      obtain ⟨nodes, hnodes, h⟩ := except_bind_ok.mp h
      obtain rfl := except_pure_ok.mp h
      rw [List.zip_cons_cons]
      exact List.forall_mem_cons.mpr ⟨⟨i, hnode⟩, ih hnodes⟩

/-- What the keywords hold for the shape of a type name is built. -/
theorem Part.built {a : Attributes}
    (hkind : kindOfName path (declaredProperties path here own) (declaredItems path here own) name =
      .ok kind) (h : Part own (kind.toNode a choices) own' n') : BuiltAs own' n' := by
  rcases kindOfName_ok_iff.mp hkind with ⟨-, ps, hps, rfl⟩ | ⟨-, m, hm, rfl⟩ | ⟨-, -, type, -, rfl⟩
  · cases h with
    | property keyword place =>
        rw [declaredProperties, keyword] at hps
        exact ⟨_, _, buildProperties_zip hps _ place⟩
  · cases h with
    | items keyword =>
        rw [declaredItems, keyword] at hm
        exact ⟨_, _, hm⟩
  · cases h

/-- A type name makes no union. -/
theorem Child.of_name {a : Attributes}
    (hkind : kindOfName path (declaredProperties path here own) (declaredItems path here own) name =
      .ok kind) (h : Child own (kind.toNode a choices) own' n') :
    Part own (kind.toNode a choices) own' n' := by
  rcases kindOfName_ok_iff.mp hkind with ⟨-, ps, -, rfl⟩ | ⟨-, m, -, rfl⟩ | ⟨-, -, type, -, rfl⟩
  all_goals
    cases h with
    | part h => exact h

/-- What stands directly below a node that is built is built. -/
theorem Child.built (h : BuiltAs own n) (child : Child own n own' n') : BuiltAs own' n' := by
  obtain ⟨path, inherited, h⟩ := h
  obtain ⟨here, choices, kind, choices', a, -, -, hkind, -, rfl⟩ := buildNode_object_ok.mp h
  unfold kindOf at hkind
  split at hkind
  · next v vs hOne =>
    split at hkind
    · cases hkind
    · obtain ⟨alternatives, halts, hkind⟩ := except_bind_ok.mp hkind
      cases hkind
      cases child with
      | part h => cases h
      | alternative keyword place =>
          rw [hOne] at keyword
          cases keyword
          obtain ⟨j, hj⟩ := buildAlternatives_zip halts _ place
          exact ⟨_, _, hj⟩
      | named noUnion => simp [hOne] at noUnion
  · cases hkind
  · next hOne =>
    rcases kindOfType_ok hkind with ⟨name, -, hk, -⟩ | ⟨-, rfl, -⟩ | ⟨names, alternatives, -, halts, rfl, -⟩
    · exact (child.of_name hk).built hk
    · cases child with
      | part h => cases h
    · cases child with
      | part h => cases h
      | alternative keyword => simp [hOne] at keyword
      | named _ hn h =>
          obtain ⟨name, -, hname⟩ := mem_of_mapM_ok halts hn
          obtain ⟨k, hk, hname⟩ := except_bind_ok.mp hname
          cases hname
          exact h.built hk

/-- Every mapping that describes a node of an accepted document is built as that node. -/
theorem Describes.built (accepted : BuiltAs document root) (h : Describes document root own n) :
    BuiltAs own n := by
  induction h with
  | root => exact accepted
  | step _ child ih => exact child.built ih

/-! ## Where an enumeration goes -/

theorem choicesOf_enum {v : Value} (enum : own.lookup "enum" = some v)
    (h : choicesOf path own = .ok choices) :
    ∃ literals, v = .array literals ∧ literals ≠ [] ∧ choices = some literals := by
  rw [choicesOf, enum] at h
  split at h
  · next absent => cases absent
  · next v vs present =>
    cases present
    cases h
    exact ⟨_, rfl, List.cons_ne_nil _ _, rfl⟩
  · cases h

/-- Among type names the scalars are those that name neither objects nor arrays. -/
theorem isScalar_of_name {properties : Except SchemaError Properties}
    {items : Except SchemaError Node} (h : kindOfName path properties items name = .ok kind) :
    kind.isScalar = true ↔ ¬(name = "object" ∨ name = "array") := by
  rcases kindOfName_ok_iff.mp h with ⟨rfl, ps, -, rfl⟩ | ⟨rfl, m, -, rfl⟩ | ⟨hobject, harray, type, -, rfl⟩
  · simp [Kind.isScalar]
  · simp [Kind.isScalar]
  · simp [Kind.isScalar, hobject, harray]

theorem alternativeOfName_limitedTo {properties : Except SchemaError Properties}
    {items : Except SchemaError Node} {literals : List Value}
    (h : alternativeOfName path here properties items (some literals) name = .ok n) :
    n.LimitedTo literals ↔ ¬(name = "object" ∨ name = "array") := by
  obtain ⟨k, hk, h⟩ := except_bind_ok.mp h
  obtain rfl := except_pure_ok.mp h
  rw [Kind.limitedTo_toNode, and_iff_left rfl, isScalar_of_name hk]

/-- A node that is built from a mapping with an enumeration carries it, unless the mapping
lists type names and none of a scalar. -/
theorem buildNode_enum {v : Value} (h : buildNode path inherited (.object own) = .ok n)
    (enum : own.lookup "enum" = some v) :
    ∃ literals, v = .array literals ∧ literals ≠ [] ∧ (n.Carries literals ↔ ¬NamesNoScalar own) := by
  obtain ⟨here, choices, kind, choices', a, -, hchoices, hkind, -, rfl⟩ := buildNode_object_ok.mp h
  obtain ⟨literals, rfl, nonempty, rfl⟩ := choicesOf_enum enum hchoices
  refine ⟨literals, rfl, nonempty, ?_⟩
  unfold kindOf at hkind
  split at hkind
  · cases hkind
  · cases hkind
  · rcases kindOfType_ok hkind with ⟨name, single, hk, fine, rfl⟩ | ⟨untyped, rfl, rfl⟩ |
      ⟨names, alternatives, typed, halts, rfl, -⟩
    · have scalar : kind.isScalar = true := by simpa using fine
      refine iff_of_true (.inl (Kind.limitedTo_toNode.mpr ⟨scalar, rfl⟩)) ?_
      rintro ⟨names, typed, all⟩
      obtain rfl := single names typed
      have composite := all _ List.mem_cons_self
      simp only [Value.string.injEq] at composite
      exact (isScalar_of_name hk).mp scalar composite
    · refine iff_of_true (.inl ⟨a, .any, rfl⟩) ?_
      rintro ⟨names, typed, -⟩
      simp [untyped] at typed
    · -- the alternatives carry the literals one by one, as their names allow
      have noScalar : NamesNoScalar own ↔ ∀ name ∈ names, name = "object" ∨ name = "array" := by
        simp [NamesNoScalar, typed]
      rw [Kind.toNode, Node.carries_union, noScalar]
      constructor
      · rintro ⟨m, hm, limited⟩ all
        obtain ⟨name, hname, halt⟩ := mem_of_mapM_ok halts hm
        exact (alternativeOfName_limitedTo halt).mp limited (all name hname)
      · intro notAll
        obtain ⟨name, refuted⟩ := Classical.not_forall.mp notAll
        obtain ⟨hname, scalar⟩ := Classical.not_imp.mp refuted
        obtain ⟨m, hm, halt⟩ := exists_of_mapM_ok halts hname
        exact ⟨m, hm, (alternativeOfName_limitedTo halt).mpr scalar⟩

/-- **Enumerations are kept.** In a document that is accepted, every mapping that describes
a node, at any depth, has an enumeration of one or more literals or none; the node carries
exactly these literals, itself or by one of its alternatives, unless the mapping lists type
names and none of a scalar: then none does. -/
theorem ofValue_enumerations {s : Schema} {v : Value}
    (accepted : ofValue (.object document) = .ok s) (described : Describes document s.root own n)
    (enum : own.lookup "enum" = some v) :
    ∃ literals, v = .array literals ∧ literals ≠ [] ∧ (n.Carries literals ↔ ¬NamesNoScalar own) := by
  obtain ⟨path, inherited, built⟩ := described.built ⟨_, _, (ofValue_ok accepted).1⟩
  exact buildNode_enum built enum

/-- A document with one property. -/
def oneProperty (own : Entries) : Entries := [("properties", .object [("x", .object own)])]

/-- Elements that are a text or a truth value, of which one is allowed. -/
def markEntries : Entries :=
  [("type", .array [.string "string", .string "boolean"]), ("enum", .array [.string "on"])]

/-- Marks, or none of them. -/
def marksEntries : Entries :=
  [("type", .array [.string "array", .string "string"]), ("items", .object markEntries),
    ("enum", .array [.string "none"])]

/-- The node of an element. -/
def markNode : Node :=
  .union {} [.scalar {} (.typed .string) (some [.string "on"]),
    .scalar {} (.typed .boolean) (some [.string "on"])]

/-- The node of all marks. -/
def marksNode : Node :=
  .union {} [.array {} markNode, .scalar {} (.typed .string) (some [.string "none"])]

/-- The items of an alternative carry their own enumeration. -/
theorem ofValue_enumerations_marks :
    let document := oneProperty marksEntries
    let s : Schema := ⟨none, none, .object {} [("x", marksNode)], ⟨[.ofNode marksNode ["x"] "x"]⟩⟩
    ofValue (.object document) = .ok s ∧ Describes document s.root markEntries markNode ∧
      markEntries.lookup "enum" = some (.array [.string "on"]) ∧
      (markNode.Carries [.string "on"] ↔ ¬NamesNoScalar markEntries) := by
  intro document s
  have accepted : ofValue (.object document) = .ok s := by cbv
  have outer : Describes document s.root marksEntries marksNode :=
    .step .root (.part (.property rfl List.mem_cons_self))
  have inner : Describes document s.root markEntries markNode :=
    .step outer (.named rfl List.mem_cons_self (.items rfl))
  have enum : markEntries.lookup "enum" = some (.array [.string "on"]) := rfl
  obtain ⟨literals, same, -, carried⟩ := ofValue_enumerations accepted inner enum
  obtain rfl := Value.array.inj same
  exact ⟨accepted, inner, enum, carried⟩

/-- A mapping that lists the two names of composites. -/
def compositeEntries : Entries :=
  [("type", .array [.string "array", .string "object"]), ("enum", .array [.string "on"])]

/-- Its node. -/
def compositeNode : Node := .union {} [.array {} (.plainScalar .any), .object {} []]

/-- An enumeration beside names of composites is accepted and dropped. -/
theorem enumeration_dropped :
    let document := oneProperty compositeEntries
    ∃ s, ofValue (.object document) = .ok s ∧
      Describes document s.root compositeEntries compositeNode ∧
      compositeEntries.lookup "enum" = some (.array [.string "on"]) ∧
      ¬compositeNode.Carries [.string "on"] := by
  intro document
  let s : Schema :=
    ⟨none, none, .object {} [("x", compositeNode)], ⟨[.ofNode compositeNode ["x"] "x"]⟩⟩
  have accepted : ofValue (.object document) = .ok s := by cbv
  refine ⟨s, accepted, .step .root (.part (.property rfl List.mem_cons_self)), rfl, ?_⟩
  rw [compositeNode, Node.carries_union]
  rintro ⟨m, hm, a, type, rfl⟩
  simp [Node.plainScalar] at hm

end Schema

end ParamTree
