import ParamTree.Proofs.Conformance
import ParamTree.Proofs.Fitting

/-!
# Resolving the output again

In a steady tree a resolution makes nothing, and its output, given as the config of a
second resolution without flags, comes back as it is. The proof walks the tree once
(`node_again`): an object finds each resolved entry under its key, and a union takes
the alternative that it took before (`shape_alternative`, `fits_of_refines`).
-/

namespace ParamTree

open FileM Resolve

namespace Node

variable {n : Node}

theorem Steady.typeKeeping (h : n.Steady) : n.TypeKeeping := fun action ha => .inr (h.1 action ha)

/-- Wrapping makes nothing. -/
theorem Steady.keeps (h : n.Steady) :
    ∀ action ∈ n.attrs.actions, ∀ v, Keeps Eq (action.apply v) := by
  intro action ha v
  obtain ⟨rfl, -⟩ := h.1 action ha
  cases v <;> exact keeps_pure RunRelation.eq _

theorem Steady.not_presence (h : n.Steady) : ∀ action ∈ n.attrs.actions, action.isPresence = false := by
  intro action ha
  obtain ⟨rfl, -⟩ := h.1 action ha
  rfl

end Node

namespace Resolve

variable {flags flags' : Option FlagInput} {fs fs' : FileSystem} {path : ParamPath} {v w : Value}

/-- A steady node is finished with the value that it was shaped to, and so again. -/
theorem finish_again {n : Node} (steady : n.Steady) (conforms : Conforms n v) {bare : Bool}
    (run : (finish n.attrs bare path v).run fs = .ok w fs') :
    w = v ∧ (finish n.attrs false path w).run fs = .ok w fs := by
  obtain rfl := conforms.finish_eq steady.typeKeeping run
  obtain rfl := keeps_finish RunRelation.eq steady.keeps _ _ _ _ run
  rw [finish_bare steady.not_presence] at run
  exact ⟨rfl, run⟩

/-! ## Sequences and mappings -/

theorem eachElement_again {f : ParamPath → Value → Resolution Value} (still : ∀ p v, Keeps Eq (f p v))
    (again : ∀ p v w fs fs', (f p v).run fs = .ok w fs' → (f p w).run fs = .ok w fs)
    {i : Nat} {vs ws : List Value} (run : (eachElement f path i vs).run fs = .ok ws fs') :
    (eachElement f path i ws).run fs = .ok ws fs := by
  have stillRest : ∀ j us, Keeps Eq (eachElement f path j us) :=
    keeps_eachElement RunRelation.eq still
  induction vs generalizing i ws with
  | nil =>
      rw [eachElement] at run
      rw [(run_pure_ok.mp run).1]
      exact run_pure_ok.mpr ⟨rfl, rfl⟩
  | cons v vs ih =>
      obtain ⟨u, hu, run⟩ := (still _ v).run_bind_ok.mp run
      obtain ⟨us, hus, run⟩ := (stillRest _ vs).run_bind_ok.mp run
      obtain ⟨rfl, rfl⟩ := run_pure_ok.mp run
      refine (still _ u).run_bind_ok.mpr ⟨u, again _ _ _ _ _ hu, ?_⟩
      exact (stillRest _ us).run_bind_ok.mpr ⟨us, ih hus, run_pure_ok.mpr ⟨rfl, rfl⟩⟩

/-- Filling an object again, from entries that hold the resolved values. -/
theorem fill_again {properties : Properties} {entries entries' fields : Entries}
    (still : ∀ p ∈ properties, ∀ here config, Keeps Eq (property flags here config p.2))
    (again : ∀ p ∈ properties, ∀ here config fs w fs',
      (property flags here config p.2).run fs = .ok w fs' →
        (property flags' here (some w) p.2).run fs = .ok w fs)
    (run : (fill flags path entries properties).run fs = .ok fields fs')
    (held : ∀ field ∈ fields, entries'.lookup field.1 = some field.2) :
    (fill flags' path entries' properties).run fs = .ok fields fs := by
  induction properties generalizing fs fields with
  | nil =>
      rw [fill] at run
      rw [(run_pure_ok.mp run).1]
      exact run_pure_ok.mpr ⟨rfl, rfl⟩
  | cons p rest ih =>
      obtain ⟨value, fs₁, values, hvalue, hrest, rfl⟩ := fill_cons_ok.mp run
      obtain rfl := still p List.mem_cons_self _ _ _ _ _ hvalue
      have hagain := again p List.mem_cons_self _ _ _ _ _ hvalue
      have hrest := ih (fun q hq => still q (List.mem_cons_of_mem _ hq))
        (fun q hq => again q (List.mem_cons_of_mem _ hq)) hrest
        fun field hfield => held field (List.mem_cons_of_mem _ hfield)
      refine fill_cons_ok.mpr ⟨value, fs, values, ?_, hrest, rfl⟩
      rw [held _ List.mem_cons_self]
      exact hagain

theorem contents_again {properties : Properties} {given : Option Value} {fields : Entries}
    (distinct : (properties.map Prod.fst).Nodup)
    (still : ∀ p ∈ properties, ∀ here config, Keeps Eq (property flags here config p.2))
    (again : ∀ p ∈ properties, ∀ here config fs w fs',
      (property flags here config p.2).run fs = .ok w fs' →
        (property flags' here (some w) p.2).run fs = .ok w fs)
    (run : (contents flags path properties given).run fs = .ok fields fs') :
    (contents flags' path properties (some (.object fields))).run fs = .ok fields fs := by
  obtain ⟨entries, -, hfill⟩ := contents_ok.mp run
  -- the resolved keys are the declared ones, so the mapping is admitted and searched by key
  have hkeys := fill_keys hfill
  refine contents_ok.mpr ⟨fields, supplied_ok.mpr ⟨rfl, fun key hkey => hkeys ▸ hkey⟩, ?_⟩
  refine fill_again still again hfill fun field hfield => ?_
  exact lookup_of_mem (hkeys ▸ distinct) hfield

/-! ## Nodes -/

section Nodes

variable {n : Node}

theorem shape_again_of_given
    (h : ∀ path v fs w fs', (shapeGiven path v n).run fs = .ok w fs' →
      (shapeGiven path w n).run fs = .ok w fs) :
    ∀ path v fs w fs', (shape path v n).run fs = .ok w fs' → (shape path w n).run fs = .ok w fs := by
  intro path v fs w fs' run
  rcases shape_run_ok.mp run with ⟨rfl, hnull, rfl, rfl⟩ | ⟨-, run⟩
  · exact run
  · have hagain := h _ _ _ _ _ run
    cases hw : w.isNull && n.attrs.admitsNull with
    | true =>
        obtain ⟨hw, hnull⟩ := Bool.and_eq_true_iff.mp hw
        obtain rfl := Value.isNull_iff.mp hw
        exact shape_run_ok.mpr (.inl ⟨rfl, hnull, rfl, rfl⟩)
    | false => exact shape_run_ok.mpr (.inr ⟨hw, hagain⟩)

theorem nodeValue_again (steady : n.Every Node.Steady)
    (again : ∀ path v fs w fs', (shape path v n).run fs = .ok w fs' →
      (shape path w n).run fs = .ok w fs) {raw : Raw}
    (run : (nodeValue path n raw).run fs = .ok w fs') :
    (nodeValue path n { value := w }).run fs = .ok w fs := by
  have still := keeps_node RunRelation.eq (steady.imp fun m hm => hm.keeps)
  have keeping := steady.imp fun m hm => hm.typeKeeping
  obtain ⟨x, hshape, hfinish⟩ := (still.1 _ _).run_bind_ok.mp run
  have conforms := (node_conforms keeping).1 _ _ _ _ _ hshape
  obtain ⟨rfl, hdone⟩ := finish_again steady.self conforms hfinish
  exact run_bind_ok.mpr ⟨w, fs, again _ _ _ _ _ hshape, hdone⟩

/-- Without flags a leaf takes the resolved value from the config. -/
theorem leaf_again (leaf : n.isObject = false) (steady : n.Every Node.Steady)
    (again : ∀ path v fs w fs', (shape path v n).run fs = .ok w fs' →
      (shape path w n).run fs = .ok w fs) :
    ∀ flags flags', Silent flags' → ∀ here config fs w fs',
      (property flags here config n).run fs = .ok w fs' →
        (property flags' here (some w) n).run fs = .ok w fs := by
  intro flags flags' silent here config fs w fs' run
  rw [property_leaf leaf, run_bind_ok] at run
  obtain ⟨raw, fs₁, hpick, run⟩ := run
  obtain ⟨-, rfl⟩ := run_liftExcept_ok.mp hpick
  rw [property_entry leaf (silent _)]
  exact nodeValue_again steady again run

/-- A union takes for the resolved value the alternative that it took before. -/
theorem union_again {a : Attributes} {alternatives : List Node}
    (steady : (Node.union a alternatives).Every Node.Steady)
    (again : ∀ m ∈ alternatives, ∀ path v fs w fs', (shape path v m).run fs = .ok w fs' →
      (shape path w m).run fs = .ok w fs)
    (run : (shapeGiven path v (.union a alternatives)).run fs = .ok w fs') :
    (shapeGiven path w (.union a alternatives)).run fs = .ok w fs := by
  rw [shapeGiven, steady.self.makesList_eq_false] at run ⊢
  obtain ⟨before, m, after, rfl, hbefore, hm, hvalue⟩ := shapeFirst_ok run
  have hmem : m ∈ before ++ m :: after := by simp
  have strict := steady.self.strict hmem
  have steadyM := steady.alternative hmem
  obtain ⟨x, fs₁, hx, hfinish⟩ := run_bind_ok.mp hvalue
  obtain rfl := finish_plain (steadyM.self.actions_eq_nil strict) hfinish
  rw [wrapFor_eq strict hm] at hx
  obtain ⟨hrefines, hfits⟩ := shape_alternative steadyM strict hm hx
  -- what did not fit before does not fit now
  have hstill : ∀ k ∈ before, fits false w k = false := by
    intro k hk
    have hkmem : k ∈ before ++ m :: after := by simp [hk]
    refine Bool.eq_false_iff.mpr fun hfit => ?_
    have hraw := fits_of_refines (steady.alternative hkmem) (steady.self.strict hkmem) hrefines hfit
    rw [hbefore k hk] at hraw
    cases hraw
  rw [shapeFirst_append hstill hfits, wrapFor_eq strict hfits]
  exact nodeValue_again steadyM (again m hmem) hvalue

/-- An object that resolves once resolves to the same mapping from that mapping. -/
theorem object_again {a : Attributes} {properties : Properties} {given : Option Value}
    (steady : (Node.object a properties).Every Node.Steady)
    (distinct : (Node.object a properties).DistinctKeys)
    (again : ∀ p ∈ properties, ∀ here config fs w fs',
      (property flags here config p.2).run fs = .ok w fs' →
        (property flags' here (some w) p.2).run fs = .ok w fs)
    (run : (contents flags path properties given >>= fun fields =>
      finish a false path (.object fields)).run fs = .ok w fs') :
    fs' = fs ∧ ∃ fields, w = .object fields ∧
      (contents flags' path properties (some w) >>= fun fields =>
        finish a false path (.object fields)).run fs = .ok w fs := by
  have still : ∀ p ∈ properties, ∀ here config, Keeps Eq (property flags here config p.2) :=
    fun p hp => (keeps_node RunRelation.eq ((steady.property hp).imp fun m hm => hm.keeps)).2 flags
  have keeping := steady.imp fun m hm => hm.typeKeeping
  obtain ⟨fields, hfields, hfinish⟩ := (keeps_contents RunRelation.eq still).run_bind_ok.mp run
  have conforms : Conforms (.object a properties) (.object fields) :=
    contents_conforms (fun p hp => (node_conforms (keeping.property hp)).2 _) hfields
  have same := keeps_finish RunRelation.eq steady.self.keeps _ _ _ _ hfinish
  obtain ⟨rfl, hdone⟩ := finish_again steady.self conforms hfinish
  have hagain := contents_again distinct still again hfields
  exact ⟨same.symm, fields, rfl, run_bind_ok.mpr ⟨fields, fs, hagain, hdone⟩⟩

/-- **What a steady node resolves to, it resolves to again**, whether it was shaped or
reached through properties. -/
theorem node_again (steady : n.Every Node.Steady) (distinct : n.Every Node.DistinctKeys) :
    (∀ path v fs w fs', (shape path v n).run fs = .ok w fs' →
      (shape path w n).run fs = .ok w fs) ∧
    ∀ flags flags', Silent flags' → ∀ here config fs w fs',
      (property flags here config n).run fs = .ok w fs' →
        (property flags' here (some w) n).run fs = .ok w fs := by
  have keeps := fun {m : Node} (hm : m.Every Node.Steady) =>
    keeps_node RunRelation.eq (hm.imp fun _ h => h.keeps)
  induction n using Node.treeInduction with
  | object a properties ih =>
      have below := fun p hp => ih p hp (steady.property hp) (distinct.property hp)
      constructor
      · refine shape_again_of_given fun path v fs w fs' run => ?_
        have still : ∀ p ∈ properties, ∀ here config, Keeps Eq (property none here config p.2) :=
          fun p hp => (keeps (steady.property hp)).2 none
        obtain ⟨fields, fs₁, hfields, hw⟩ := run_bind_ok.mp run
        obtain ⟨rfl, -⟩ := run_pure_ok.mp hw
        have hagain := contents_again distinct.self still
          (fun p hp => (below p hp).2 none none fun _ => rfl) hfields
        exact run_bind_ok.mpr ⟨fields, fs, hagain, run_pure_ok.mpr ⟨rfl, rfl⟩⟩
      · intro flags flags' silent here config fs w fs' run
        obtain ⟨-, fields, rfl, hagain⟩ := object_again steady distinct.self
          (fun p hp => (below p hp).2 flags flags' silent) run
        exact hagain
  | array a items ih =>
      have shaped : ∀ path v fs w fs', (shape path v (.array a items)).run fs = .ok w fs' →
          (shape path w (.array a items)).run fs = .ok w fs := by
        refine shape_again_of_given fun path v fs w fs' run => ?_
        obtain ⟨elements, fs₁, helements, hrest⟩ := run_bind_ok.mp run
        obtain ⟨-, rfl⟩ := run_liftExcept_ok.mp helements
        obtain ⟨ws, fs₂, hws, hw⟩ := run_bind_ok.mp hrest
        obtain ⟨rfl, -⟩ := run_pure_ok.mp hw
        have again := (ih steady.items distinct.items).1
        have hagain := eachElement_again (f := fun p e => nodeValue p items { value := e })
          (fun p e => keeps_nodeValue RunRelation.eq steady.items.self.keeps (keeps steady.items).1)
          (fun p e w fs fs' run => nodeValue_again steady.items again run) hws
        refine run_bind_ok.mpr ⟨ws, fs₁, run_liftExcept_ok.mpr ⟨rfl, rfl⟩, ?_⟩
        exact run_bind_ok.mpr ⟨ws, fs₁, hagain, run_pure_ok.mpr ⟨rfl, rfl⟩⟩
      exact ⟨shaped, leaf_again rfl steady shaped⟩
  | union a alternatives ih =>
      have again := fun m hm => (ih m hm (steady.alternative hm) (distinct.alternative hm)).1
      have shaped : ∀ path v fs w fs', (shape path v (.union a alternatives)).run fs = .ok w fs' →
          (shape path w (.union a alternatives)).run fs = .ok w fs :=
        shape_again_of_given fun path v fs w fs' run => union_again steady again run
      exact ⟨shaped, leaf_again rfl steady shaped⟩
  | scalar a type choices =>
      have shaped : ∀ path v fs w fs', (shape path v (.scalar a type choices)).run fs = .ok w fs' →
          (shape path w (.scalar a type choices)).run fs = .ok w fs := by
        refine shape_again_of_given fun path v fs w fs' run => ?_
        have hshape := (run_liftExcept_ok.mp run).1
        obtain ⟨-, -, hagain⟩ := shapeScalar_steady steady.self hshape
        exact run_liftExcept_ok.mpr ⟨hagain, rfl⟩
      exact ⟨shaped, leaf_again rfl steady shaped⟩

end Nodes

end Resolve

namespace Schema

/-- **Resolution is idempotent.** With a steady tree, a resolution that succeeds makes
nothing, and its output as the config, without tokens, resolves to itself: the same
values in the same order. -/
theorem resolve_idempotent {s : Schema} (built : s.Built) (steady : s.root.Every Node.Steady)
    {config : Option Value} {tokens : Option (List String)} {fs fs' : FileSystem} {v : Value}
    (run : (s.resolve config tokens).run fs = .ok v fs') :
    fs' = fs ∧ (s.resolve (some v) none).run fs = .ok v fs := by
  obtain ⟨a, properties, hroot⟩ := built.root_object
  have distinct := built.distinct
  rw [hroot] at steady distinct
  rw [resolve_eq, run_bind_ok] at run
  obtain ⟨input, fs₁, hinput, hwalk⟩ := run
  obtain ⟨-, rfl⟩ := run_liftExcept_ok.mp hinput
  rw [resolveInput_eq, hroot] at hwalk
  have silent : Silent (some {}) := fun _ => rfl
  obtain ⟨rfl, fields, rfl, hagain⟩ := object_again steady distinct.self
    (fun p hp => (node_again (steady.property hp) (distinct.property hp)).2 _ _ silent) hwalk
  refine ⟨rfl, ?_⟩
  rw [resolve_eq]
  refine run_bind_ok.mpr ⟨{}, _, run_liftExcept_ok.mpr ⟨rfl, rfl⟩, ?_⟩
  rw [resolveInput_eq, hroot]
  exact hagain

theorem resolve_idempotent_training :
    (trainingSchema.resolve (some trainingOutput) none).run (.bare []) =
      .ok trainingOutput (.bare []) := by
  have steady : trainingSchema.root.Every Node.Steady := by
    simp [trainingSchema, trainingRoot, Node.plainScalar, Node.Steady, Node.Strict, Node.attrs,
      Node.isArray]
  exact (resolve_idempotent trainingSchema_built steady trainingSchema_run).2

end Schema

end ParamTree
