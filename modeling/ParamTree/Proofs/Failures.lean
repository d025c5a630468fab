import ParamTree.Proofs.Traversal

/-!
# Where a resolution fails

A resolution stops at its first failure. `Fails P m` says that `P` holds of every
failure of `m`; its lemmas follow the steps of a run as those of `Keeps` do, and
`run_bind_error` says which of two steps failed.

Every failure of the walk names the node whose resolution failed
(`ResolveError.node?`). `fails_node` says that this is the node that was being
resolved or one below it (`Within`). What a sequence or a mapping passes on comes from
further down (`Deeper`), and what actions and checks report is at the node itself
(`Afterwards`).
-/

namespace ParamTree

namespace FileM

variable {ε ε' α β : Type} {fs fs' : FileSystem}

/-! ## Taking failed runs apart -/

theorem run_bind_error {x : FileM ε α} {f : α → FileM ε β} {e : ε} :
    (x >>= f).run fs = .error e fs' ↔
      x.run fs = .error e fs' ∨ ∃ a fs₁, x.run fs = .ok a fs₁ ∧ (f a).run fs₁ = .error e fs' := by
  rw [EStateM.run_bind]
  cases x.run fs with
  | ok a fs₁ => simp [and_assoc]
  | error e fs₁ => simp

theorem run_pure_error {a : α} {e : ε} : (pure a : FileM ε α).run fs ≠ .error e fs' := by
  intro h
  cases h

theorem run_throw_error {e e' : ε} :
    (throw e : FileM ε α).run fs = .error e' fs' ↔ e' = e ∧ fs' = fs := by
  constructor
  · intro h
    cases h
    exact ⟨rfl, rfl⟩
  · rintro ⟨rfl, rfl⟩
    rfl

theorem run_adaptExcept_error {f : ε → ε'} {x : FileM ε α} {e : ε'} :
    (EStateM.adaptExcept f x).run fs = .error e fs' ↔ ∃ e₀, x.run fs = .error e₀ fs' ∧ e = f e₀ := by
  rw [EStateM.run_adaptExcept]
  cases x.run fs with
  | ok a fs₁ => simp
  | error e₀ fs₁ =>
      simp only [EStateM.Result.error.injEq]
      constructor
      · rintro ⟨rfl, rfl⟩
        exact ⟨e₀, ⟨rfl, rfl⟩, rfl⟩
      · rintro ⟨_, ⟨rfl, rfl⟩, rfl⟩
        exact ⟨rfl, rfl⟩

/-! ## What a failure satisfies -/

/-- Does every failure of the run satisfy `P`? -/
def Fails (P : ε → Prop) (m : FileM ε α) : Prop := ∀ fs e fs', m.run fs = .error e fs' → P e

variable {P Q : ε → Prop}

theorem Fails.imp {m : FileM ε α} (h : Fails P m) (hPQ : ∀ e, P e → Q e) : Fails Q m :=
  fun fs e fs' run => hPQ e (h fs e fs' run)

theorem fails_pure (a : α) : Fails P (pure a : FileM ε α) :=
  fun _ _ _ h => absurd h run_pure_error

theorem fails_throw {e : ε} (h : P e) : Fails P (throw e : FileM ε α) := by
  intro fs e' fs' run
  obtain ⟨rfl, -⟩ := run_throw_error.mp run
  exact h

theorem Fails.bind {x : FileM ε α} {f : α → FileM ε β} (hx : Fails P x) (hf : ∀ a, Fails P (f a)) :
    Fails P (x >>= f) := by
  intro fs e fs' run
  rcases run_bind_error.mp run with run | ⟨a, fs₁, -, run⟩
  · exact hx fs e fs' run
  · exact hf a fs₁ e fs' run

theorem fails_adaptExcept {P : ε' → Prop} {f : ε → ε'} (h : ∀ e, P (f e)) (x : FileM ε α) :
    Fails P (EStateM.adaptExcept f x) := by
  intro fs e fs' run
  obtain ⟨e₀, -, rfl⟩ := run_adaptExcept_error.mp run
  exact h e₀

end FileM

open FileM

/-! ## The node at fault -/

namespace ResolveError

/-- The node whose resolution failed: for an undeclared key the object that holds it. -/
def node? : ResolveError → Option ParamPath
  | unknownKey path => some path.up
  | e => e.path?

/-- Does the failure concern the node at the path, or a node below it? -/
def Within (path : ParamPath) (e : ResolveError) : Prop :=
  ∃ here, e.node? = some here ∧ path.segments <+: here.segments

/-- Does the failure concern a node below the one at the path? -/
def Deeper (path : ParamPath) (e : ResolveError) : Prop :=
  ∃ here, e.node? = some here ∧ path.segments <+: here.segments ∧ here ≠ path

/-- Is this the failure of an action or a check of the node at the path? -/
def Afterwards (path : ParamPath) (e : ResolveError) : Prop :=
  (∃ action fault, e = .actionFailed path action fault) ∨ ∃ check fault, e = .checkFailed path check fault

variable {path : ParamPath} {e : ResolveError}

theorem within_of_node? (h : e.node? = some path) : e.Within path := ⟨path, h, List.prefix_rfl⟩

theorem Deeper.within (h : e.Deeper path) : e.Within path := by
  obtain ⟨here, hnode, hprefix, -⟩ := h
  exact ⟨here, hnode, hprefix⟩

theorem Afterwards.within (h : e.Afterwards path) : e.Within path := by
  rcases h with ⟨action, fault, rfl⟩ | ⟨check, fault, rfl⟩ <;> exact within_of_node? rfl

theorem Within.deeper {step : Segment} (h : e.Within ⟨path.segments ++ [step]⟩) : e.Deeper path := by
  obtain ⟨here, hnode, hprefix⟩ := h
  refine ⟨here, hnode, (List.prefix_append _ _).trans hprefix, ?_⟩
  rintro rfl
  have hlength := hprefix.length_le
  rw [List.length_append, List.length_singleton] at hlength
  omega

end ResolveError

@[simp] theorem ParamPath.up_key (p : ParamPath) (name : String) : (p.key name).up = p := by
  simp [up, key]

namespace Resolve

open ResolveError

variable {flags : Option FlagInput} {path here : ParamPath} {entries : Entries}

theorem run_liftExcept_error {α : Type} {x : Except ResolveError α} {e : ResolveError}
    {fs fs' : FileSystem} : (liftExcept x).run fs = .error e fs' ↔ x = .error e ∧ fs' = fs := by
  cases x with
  | ok a => simp [liftExcept]
  | error e₀ =>
      rw [liftExcept, run_throw_error]
      simp [eq_comm]

theorem fails_liftExcept {P : ResolveError → Prop} {α : Type} {x : Except ResolveError α}
    (h : ∀ e, x = .error e → P e) : Fails P (liftExcept x) := by
  intro fs e fs' run
  exact h e (run_liftExcept_error.mp run).1

/-! ## The steps of the walk -/

theorem fails_applyActions (bare : Bool) (actions : List Action) (v : Value) :
    Fails (Afterwards path) (applyActions bare path actions v) := by
  induction actions generalizing v with
  | nil => exact fails_pure v
  | cons action rest ih =>
      rw [applyActions]
      split
      · exact ih v
      · exact (fails_adaptExcept (fun fault => .inl ⟨action, fault, rfl⟩) _).bind ih

theorem fails_runChecks (checks : List Check) (v : Value) :
    Fails (Afterwards path) (runChecks path v checks) := by
  induction checks with
  | nil => exact fails_pure ()
  | cons check rest ih =>
      exact (fails_adaptExcept (fun fault => .inr ⟨check, fault, rfl⟩) _).bind fun _ => ih

theorem fails_finish (attrs : Attributes) (bare : Bool) (v : Value) :
    Fails (Afterwards path) (finish attrs bare path v) := by
  rw [finish]
  split
  · exact fails_pure v
  · exact (fails_applyActions bare _ v).bind fun w =>
      (fails_runChecks _ w).bind fun _ => fails_pure w

theorem pick_error {leaf : Node} {config : Option Value} {e : ResolveError}
    (h : pick flags leaf config path = .error e) : e = .missingRequired path := by
  unfold pick at h
  split at h
  · cases h
  · split at h
    · cases h
    · split at h <;> cases h
      rfl

theorem supplied_error {properties : Properties} {given : Option Value} {e : ResolveError}
    (h : supplied properties path given = .error e) : e.node? = some path := by
  unfold supplied at h
  split at h
  · cases h
  · split at h <;> cases h
    simp [node?]
  · cases h
    rfl

theorem elementsOf_error {attrs : Attributes} {summary : String} {v : Value} {e : ResolveError}
    (h : elementsOf attrs summary path v = .error e) : e.node? = some path := by
  unfold elementsOf at h
  split at h
  · cases h
  · cases h
    rfl
  · split at h <;> cases h
    rfl

theorem shapeScalar_error {type : Primitive} {choices : Option (List Value)} {v : Value}
    {e : ResolveError} (h : shapeScalar type choices path v = .error e) : e.node? = some path := by
  unfold shapeScalar at h
  split at h
  · cases h
    rfl
  · split at h
    · cases h
    · split at h <;> cases h
      rfl

theorem fails_eachElement {f : ParamPath → Value → Resolution Value}
    (h : ∀ p v, Fails (Within p) (f p v)) (i : Nat) (vs : List Value) :
    Fails (Deeper path) (eachElement f path i vs) := by
  induction vs generalizing i with
  | nil => exact fails_pure []
  | cons v vs ih =>
      exact ((h _ v).imp fun _ => Within.deeper).bind fun w => (ih (i + 1)).bind fun ws => fails_pure _

theorem fails_fill {properties : Properties}
    (h : ∀ p ∈ properties, ∀ here config, Fails (Within here) (property flags here config p.2)) :
    Fails (Deeper path) (fill flags path entries properties) := by
  induction properties with
  | nil => exact fails_pure []
  | cons p rest ih =>
      have first := h p List.mem_cons_self (path.key p.1) (entries.lookup p.1)
      rw [fill_cons]
      exact (first.imp fun _ => Within.deeper).bind fun value =>
        (ih fun q hq => h q (List.mem_cons_of_mem _ hq)).bind fun values => fails_pure _

theorem fails_contents {properties : Properties} {given : Option Value}
    (h : ∀ p ∈ properties, ∀ here config, Fails (Within here) (property flags here config p.2)) :
    Fails (Within path) (contents flags path properties given) := by
  refine (fails_liftExcept fun e he => within_of_node? (supplied_error he)).bind fun entries => ?_
  exact (fails_fill h).imp fun _ => Deeper.within

theorem fails_nodeValue {n : Node} {raw : Raw} (h : ∀ path v, Fails (Within path) (shape path v n)) :
    Fails (Within path) (nodeValue path n raw) :=
  (h _ _).bind fun shaped => (fails_finish _ _ shaped).imp fun _ => Afterwards.within

theorem fails_shape {n : Node} {v : Value} {P : ResolveError → Prop}
    (h : Fails P (shapeGiven path v n)) : Fails P (shape path v n) := by
  rw [shape_eq]
  split
  · exact fails_pure _
  · exact h

theorem fails_leaf {leaf : Node} (hl : leaf.isObject = false) {config : Option Value}
    (h : ∀ path v, Fails (Within path) (shape path v leaf)) :
    Fails (Within here) (property flags here config leaf) := by
  rw [property_leaf hl]
  refine (fails_liftExcept fun e he => ?_).bind fun raw => fails_nodeValue h
  rw [pick_error he]
  exact within_of_node? rfl

/-- **A node fails at itself or below.** -/
theorem fails_node (n : Node) :
    (∀ path v, Fails (Within path) (shape path v n)) ∧
      ∀ flags here config, Fails (Within here) (property flags here config n) := by
  induction n using Node.treeInduction with
  | object a properties ih =>
      have below := fun p hp => (ih p hp).2
      constructor
      · intro path v
        exact fails_shape ((fails_contents fun p hp => below p hp none).bind fun _ => fails_pure _)
      · intro flags here config
        refine (fails_contents fun p hp => below p hp flags).bind fun fields => ?_
        exact (fails_finish a false _).imp fun _ => Afterwards.within
  | array a items ih =>
      have shaped : ∀ path v, Fails (Within path) (shape path v (.array a items)) := by
        intro path v
        refine fails_shape ((fails_liftExcept fun e he => ?_).bind fun elements => ?_)
        · exact within_of_node? (elementsOf_error he)
        · have each : Fails (Deeper path)
              (eachElement (fun p e => nodeValue p items { value := e }) path 0 elements) :=
            fails_eachElement (fun p e => fails_nodeValue ih.1) 0 elements
          exact (each.imp fun _ => Deeper.within).bind fun _ => fails_pure _
      exact ⟨shaped, fun flags here config => fails_leaf rfl shaped⟩
  | union a alternatives ih =>
      have first : ∀ path v tried, Fails (Within path) (shapeFirst a.makesList path v tried alternatives) := by
        intro path v tried
        induction alternatives with
        | nil => exact fails_throw (within_of_node? rfl)
        | cons n rest ihRest =>
            rw [shapeFirst_cons]
            split
            · exact fails_nodeValue (ih n List.mem_cons_self).1
            · exact ihRest fun m hm => ih m (List.mem_cons_of_mem _ hm)
      have shaped : ∀ path v, Fails (Within path) (shape path v (.union a alternatives)) :=
        fun path v => fails_shape (first path v _)
      exact ⟨shaped, fun flags here config => fails_leaf rfl shaped⟩
  | scalar a type choices =>
      have shaped : ∀ path v, Fails (Within path) (shape path v (.scalar a type choices)) :=
        fun path v => fails_shape (fails_liftExcept fun e he => within_of_node? (shapeScalar_error he))
      exact ⟨shaped, fun flags here config => fails_leaf rfl shaped⟩

end Resolve

end ParamTree
