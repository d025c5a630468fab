import ParamTree.Proofs.Flags
import ParamTree.Proofs.Scalars
import ParamTree.Proofs.Traversal

/-!
# Resolved values have the declared type

`Conforms n v` says that the value `v` has the type that the node `n` declares,
without a word about how a value gets there. Shaping lands in the declared type from
any raw value, and actions that hand the shaped value back keep it there
(`Node.TypeKeeping`); `node_conforms` says so for every node of a tree, and
`Schema.resolve_conforms` for a resolution as a whole.
-/

namespace ParamTree

open FileM Resolve

/-- Does the value have the type that the node declares? -/
inductive Conforms : Node → Value → Prop
  /-- Null has every type whose default it is. -/
  | null {n : Node} (h : n.attrs.admitsNull) : Conforms n .null
  /-- An enumeration has its literals and nothing else. -/
  | literal {a : Attributes} {type : Primitive} {allowed : List Value} {v : Value}
      (h : v ∈ allowed) : Conforms (.scalar a type (some allowed)) v
  | typed {a : Attributes} {type : Primitive} {v : Value} (h : type.admits v) :
      Conforms (.scalar a type none) v
  | sequence {a : Attributes} {items : Node} {vs : List Value} (h : ∀ v ∈ vs, Conforms items v) :
      Conforms (.array a items) (.array vs)
  | alternative {a : Attributes} {alternatives : List Node} {n : Node} {v : Value}
      (hn : n ∈ alternatives) (h : Conforms n v) : Conforms (.union a alternatives) v
  /-- A mapping has exactly the declared keys, in declaration order. -/
  | mapping {a : Attributes} {properties : Properties} {entries : Entries}
      (keys : entries.map Prod.fst = properties.map Prod.fst)
      (values : ∀ p ∈ properties.zip entries, Conforms p.1.2 p.2.2) :
      Conforms (.object a properties) (.object entries)

/-- Does every action of the node hand back a value of the node's type? Making
directories does, and so does wrapping what a sequence node holds. -/
def Node.TypeKeeping (n : Node) : Prop :=
  ∀ action ∈ n.attrs.actions,
    (∃ mode existOk, action = .makeDir mode existOk) ∨ action = .makeList ∧ n.isArray

namespace Conforms

variable {fs fs' : FileSystem} {path here : ParamPath} {v w : Value}

/-- What has the type of a sequence and is not null is a sequence. -/
theorem array_of_isArray {n : Node} (h : Conforms n v) (isArray : n.isArray)
    (present : v.isNull = false) : ∃ items, v = .array items := by
  cases h with
  | null => cases present
  | sequence => exact ⟨_, rfl⟩
  | literal | typed | alternative | mapping => cases isArray

/-- Finishing a node of this kind gives back the conforming value. -/
theorem finish_eq {n : Node} (h : Conforms n v) (keeping : n.TypeKeeping) {bare : Bool}
    (run : (Resolve.finish n.attrs bare path v).run fs = .ok w fs') : w = v := by
  refine finish_value (fun present action ha => ?_) run
  rcases keeping action ha with ⟨mode, existOk, rfl⟩ | ⟨rfl, isArray⟩
  · exact keepsValue_makeDir v mode existOk
  · obtain ⟨items, rfl⟩ := h.array_of_isArray isArray present
    exact keepsValue_makeList items

theorem finish {n : Node} (h : Conforms n v) (keeping : n.TypeKeeping) {bare : Bool}
    (run : (Resolve.finish n.attrs bare path v).run fs = .ok w fs') : Conforms n w := by
  rw [h.finish_eq keeping run]
  exact h

end Conforms

namespace Resolve

variable {flags : Option FlagInput} {fs fs' : FileSystem} {path here : ParamPath} {v w : Value}

/-! ## Scalars -/

theorem shapeScalar_conforms {a : Attributes} {type : Primitive} {choices : Option (List Value)}
    (h : shapeScalar type choices path v = .ok w) : Conforms (.scalar a type choices) w := by
  obtain ⟨read, hread, htaken⟩ := shapeScalar_ok.mp h
  cases choices with
  | none =>
      cases htaken
      exact .typed (coerce_admits hread)
  | some allowed => exact .literal (List.mem_of_find?_eq_some htaken)

/-! ## Nodes -/

/-- Mapped properties conform as soon as each of them does. -/
theorem contents_conforms {a : Attributes} {properties : Properties} {given : Option Value}
    {fields : Entries}
    (h : ∀ p ∈ properties, ∀ here config fs w fs',
      (property flags here config p.2).run fs = .ok w fs' → Conforms p.2 w)
    (run : (contents flags path properties given).run fs = .ok fields fs') :
    Conforms (.object a properties) (.object fields) := by
  obtain ⟨entries, -, run⟩ := contents_ok.mp run
  refine .mapping (fill_keys run) fun p hp => ?_
  obtain ⟨fs₁, fs₂, hrun⟩ := fill_zip run p hp
  exact h p.1 (List.of_mem_zip hp).1 _ _ _ _ _ hrun

theorem shape_conforms_of_given {n : Node}
    (h : ∀ path v fs w fs', (shapeGiven path v n).run fs = .ok w fs' → Conforms n w) :
    ∀ path v fs w fs', (shape path v n).run fs = .ok w fs' → Conforms n w := by
  intro path v fs w fs' run
  rcases shape_run_ok.mp run with ⟨-, hnull, rfl, -⟩ | ⟨-, run⟩
  · exact .null hnull
  · exact h _ _ _ _ _ run

theorem nodeValue_conforms {n : Node} (keeping : n.TypeKeeping)
    (h : ∀ path v fs w fs', (shape path v n).run fs = .ok w fs' → Conforms n w) {raw : Raw}
    (run : (nodeValue path n raw).run fs = .ok w fs') : Conforms n w := by
  obtain ⟨u, fs₁, hshape, hfinish⟩ := run_bind_ok.mp run
  exact (h _ _ _ _ _ hshape).finish keeping hfinish

theorem leaf_conforms {n : Node} (leaf : n.isObject = false) (keeping : n.TypeKeeping)
    (h : ∀ path v fs w fs', (shape path v n).run fs = .ok w fs' → Conforms n w) :
    ∀ flags here config fs w fs',
      (property flags here config n).run fs = .ok w fs' → Conforms n w := by
  intro flags here config fs w fs' run
  rw [property_leaf leaf] at run
  obtain ⟨raw, fs₁, -, run⟩ := run_bind_ok.mp run
  exact nodeValue_conforms keeping h run

/-- **A node's value has its type**, whether it was shaped or reached through
properties. -/
theorem node_conforms {n : Node} (keeping : n.Every Node.TypeKeeping) :
    (∀ path v fs w fs', (shape path v n).run fs = .ok w fs' → Conforms n w) ∧
      ∀ flags here config fs w fs',
        (property flags here config n).run fs = .ok w fs' → Conforms n w := by
  induction n using Node.treeInduction with
  | object a properties ih =>
      have below := fun p hp => (ih p hp (keeping.property hp)).2
      constructor
      · refine shape_conforms_of_given fun path v fs w fs' run => ?_
        obtain ⟨fields, fs₁, hfields, run⟩ := run_bind_ok.mp run
        obtain ⟨rfl, -⟩ := run_pure_ok.mp run
        exact contents_conforms (fun p hp => below p hp none) hfields
      · intro flags here config fs w fs' run
        obtain ⟨fields, fs₁, hfields, hfinish⟩ := run_bind_ok.mp run
        have conforms : Conforms (.object a properties) (.object fields) :=
          contents_conforms (fun p hp => below p hp flags) hfields
        exact conforms.finish keeping.self hfinish
  | array a items ih =>
      have shaped : ∀ path v fs w fs', (shape path v (.array a items)).run fs = .ok w fs' →
          Conforms (.array a items) w := by
        refine shape_conforms_of_given fun path v fs w fs' run => ?_
        obtain ⟨elements, fs₁, -, run⟩ := run_bind_ok.mp run
        obtain ⟨ws, fs₂, helements, run⟩ := run_bind_ok.mp run
        obtain ⟨rfl, -⟩ := run_pure_ok.mp run
        refine .sequence fun u hu => ?_
        obtain ⟨p, e, fs₃, fs₄, -, helement⟩ := eachElement_mem helements hu
        exact nodeValue_conforms keeping.items.self (ih keeping.items).1 helement
      exact ⟨shaped, leaf_conforms rfl keeping.self shaped⟩
  | union a alternatives ih =>
      have shaped : ∀ path v fs w fs', (shape path v (.union a alternatives)).run fs = .ok w fs' →
          Conforms (.union a alternatives) w := by
        refine shape_conforms_of_given fun path v fs w fs' run => ?_
        obtain ⟨before, n, after, rfl, -, -, hn⟩ := shapeFirst_ok run
        have hmem : n ∈ before ++ n :: after := by simp
        have keeping := keeping.alternative hmem
        exact .alternative hmem (nodeValue_conforms keeping.self (ih n hmem keeping).1 hn)
      exact ⟨shaped, leaf_conforms rfl keeping.self shaped⟩
  | scalar a type choices =>
      have shaped : ∀ path v fs w fs', (shape path v (.scalar a type choices)).run fs = .ok w fs' →
          Conforms (.scalar a type choices) w :=
        shape_conforms_of_given fun path v fs w fs' run =>
          shapeScalar_conforms (run_liftExcept_ok.mp run).1
      exact ⟨shaped, leaf_conforms rfl keeping.self shaped⟩

end Resolve

namespace Schema

/-- **Type soundness.** In a schema whose actions keep the type, every resolution that
succeeds gives a value of the type that the root declares. -/
theorem resolve_conforms {s : Schema} (built : s.Built) (keeping : s.root.Every Node.TypeKeeping)
    {config : Option Value} {tokens : Option (List String)} {fs fs' : FileSystem} {v : Value}
    (run : (s.resolve config tokens).run fs = .ok v fs') : Conforms s.root v := by
  obtain ⟨a, properties, hroot⟩ := built.root_object
  rw [resolve_eq, run_bind_ok] at run
  obtain ⟨input, fs₁, -, run⟩ := run
  rw [resolveInput_eq, run_bind_ok] at run
  obtain ⟨fields, fs₂, hfields, hfinish⟩ := run
  have conforms : Conforms s.root (.object fields) := by
    rw [hroot] at keeping hfields ⊢
    exact contents_conforms (fun p hp => (node_conforms (keeping.property hp)).2 _) hfields
  exact conforms.finish keeping.self hfinish

theorem resolve_conforms_training : Conforms trainingSchema.root trainingOutput := by
  have keeping : trainingSchema.root.Every Node.TypeKeeping := by
    simp [trainingSchema, trainingRoot, Node.plainScalar, Node.TypeKeeping, Node.attrs,
      Node.isArray]
  exact resolve_conforms trainingSchema_built keeping trainingSchema_run

end Schema

end ParamTree
