import ParamTree.Resolve.Basic

/-!
# Successful runs

A resolution runs on a file system and gives a value with the file system that it
leaves, or fails. The lemmas here take a successful run apart step by step, so
that later proofs never look at how resolutions are represented.

`Keeps R m` says that every successful run of `m` leaves a file system in relation
`R` to the one it started from. With equality for `R` that is a run which makes
nothing; with extension it is one which removes nothing.
-/

namespace ParamTree

namespace FileM

variable {ε ε' α β : Type} {fs fs' : FileSystem}

/-! ## Taking runs apart -/

theorem run_bind_ok {x : FileM ε α} {f : α → FileM ε β} {b : β} :
    (x >>= f).run fs = .ok b fs' ↔
      ∃ a fs₁, x.run fs = .ok a fs₁ ∧ (f a).run fs₁ = .ok b fs' := by
  rw [EStateM.run_bind]
  cases x.run fs with
  | ok a fs₁ => simp [and_assoc]
  | error e fs₁ => simp

theorem run_pure_ok {a b : α} :
    (pure a : FileM ε α).run fs = .ok b fs' ↔ b = a ∧ fs' = fs := by
  rw [EStateM.run_pure]
  simp [eq_comm]

theorem run_throw_ok {e : ε} {a : α} : (throw e : FileM ε α).run fs ≠ .ok a fs' := by
  intro h
  cases h

theorem run_adaptExcept_ok {f : ε → ε'} {x : FileM ε α} {a : α} :
    (EStateM.adaptExcept f x).run fs = .ok a fs' ↔ x.run fs = .ok a fs' := by
  rw [EStateM.run_adaptExcept]
  cases x.run fs <;> simp

/-- Steps that agree on every result of the step before are the same steps. -/
theorem bind_congr_results {x : FileM ε α} {f g : α → FileM ε β}
    (h : ∀ fs a fs', x.run fs = .ok a fs' → f a = g a) : x >>= f = x >>= g := by
  funext fs
  show (x >>= f).run fs = (x >>= g).run fs
  rw [EStateM.run_bind, EStateM.run_bind]
  cases hx : x.run fs with
  | ok a fs₁ => simp only [h fs a fs₁ hx]
  | error e fs₁ => rfl

/-! ## What a run does to the file system -/

/-- A relation that can be followed through a run: nothing happens, or one thing
after another. -/
structure RunRelation (R : FileSystem → FileSystem → Prop) : Prop where
  refl : ∀ fs, R fs fs
  trans : ∀ {a b c}, R a b → R b c → R a c

theorem RunRelation.eq : RunRelation Eq := ⟨fun _ => rfl, fun h₁ h₂ => h₁.trans h₂⟩

/-- Every successful run leaves a file system in relation to the one before. -/
def Keeps (R : FileSystem → FileSystem → Prop) (m : FileM ε α) : Prop :=
  ∀ fs a fs', m.run fs = .ok a fs' → R fs fs'

variable {R : FileSystem → FileSystem → Prop}

theorem keeps_pure (hR : RunRelation R) (a : α) : Keeps R (pure a : FileM ε α) := by
  intro fs b fs' h
  obtain ⟨-, rfl⟩ := run_pure_ok.mp h
  exact hR.refl fs'

theorem keeps_throw (e : ε) : Keeps R (throw e : FileM ε α) :=
  fun _ _ _ h => absurd h run_throw_ok

theorem Keeps.bind (hR : RunRelation R) {x : FileM ε α} {f : α → FileM ε β}
    (hx : Keeps R x) (hf : ∀ a, Keeps R (f a)) : Keeps R (x >>= f) := by
  intro fs b fs' h
  obtain ⟨a, fs₁, h₁, h₂⟩ := run_bind_ok.mp h
  exact hR.trans (hx fs a fs₁ h₁) (hf a fs₁ b fs' h₂)

/-- A run that makes nothing hands the file system on as it is. -/
theorem Keeps.run_bind_ok {x : FileM ε α} (hx : Keeps Eq x) {f : α → FileM ε β} {b : β} :
    (x >>= f).run fs = .ok b fs' ↔ ∃ a, x.run fs = .ok a fs ∧ (f a).run fs = .ok b fs' := by
  rw [FileM.run_bind_ok]
  constructor
  · rintro ⟨a, fs₁, h₁, h₂⟩
    obtain rfl := hx fs a fs₁ h₁
    exact ⟨a, h₁, h₂⟩
  · rintro ⟨a, h₁, h₂⟩
    exact ⟨a, fs, h₁, h₂⟩

theorem Keeps.adaptExcept {f : ε → ε'} {x : FileM ε α} (hx : Keeps R x) :
    Keeps R (EStateM.adaptExcept f x) :=
  fun fs a fs' h => hx fs a fs' (run_adaptExcept_ok.mp h)

/-- What holds of the run on each path holds of the run on all paths of a value. -/
theorem keeps_forEachPath (hR : RunRelation R) {notAPath : Value → ε} {f : String → FileM ε Unit}
    (hf : ∀ path, Keeps R (f path)) :
    (∀ v, Keeps R (forEachPath notAPath f v)) ∧ ∀ vs, Keeps R (forEachPathIn notAPath f vs) := by
  -- along the definition: a path, a sequence, what is neither, then the items one by one
  apply forEachPath.mutual_induct
  case case1 =>
    intro path
    rw [forEachPath]
    exact hf path
  case case2 =>
    intro items ih
    rw [forEachPath]
    exact ih
  case case3 =>
    intro other hString hArray
    rw [forEachPath.eq_3 _ _ _ hString hArray]
    exact keeps_throw _
  case case4 => exact keeps_pure hR ()
  case case5 =>
    intro v vs ihv ihvs
    rw [forEachPathIn]
    exact ihv.bind hR fun _ => ihvs

end FileM

open FileM

theorem Check.keeps_runAt (check : Check) (path : String) : Keeps Eq (check.runAt path) := by
  intro fs a fs' h
  obtain ⟨seen, fs₁, hget, h⟩ := run_bind_ok.mp h
  cases hget
  cases check <;> simp only at h <;> split at h <;> cases h <;> rfl

/-- A check only looks. -/
theorem Check.keeps_run (check : Check) (v : Value) : Keeps Eq (check.run v) :=
  (keeps_forEachPath RunRelation.eq check.keeps_runAt).1 v

namespace Resolve

variable {fs fs' : FileSystem} {R : FileSystem → FileSystem → Prop}

theorem run_liftExcept_ok {α : Type} {x : Except ResolveError α} {a : α} :
    (liftExcept x).run fs = .ok a fs' ↔ x = .ok a ∧ fs' = fs := by
  cases x with
  | ok b =>
      rw [liftExcept, run_pure_ok]
      simp [eq_comm]
  | error e => simpa [liftExcept] using run_throw_ok

theorem keeps_liftExcept (hR : RunRelation R) {α : Type} (x : Except ResolveError α) :
    Keeps R (liftExcept x) := by
  intro fs a fs' h
  obtain ⟨-, rfl⟩ := run_liftExcept_ok.mp h
  exact hR.refl fs'

/-! ## Actions and checks -/

theorem keeps_runChecks (path : ParamPath) (v : Value) (checks : List Check) :
    Keeps Eq (runChecks path v checks) := by
  induction checks with
  | nil => exact keeps_pure RunRelation.eq ()
  | cons check rest ih => exact ((check.keeps_run v).adaptExcept).bind RunRelation.eq fun _ => ih

theorem keeps_applyActions (hR : RunRelation R) {bare : Bool} {path : ParamPath}
    {actions : List Action} (h : ∀ action ∈ actions, ∀ v, Keeps R (action.apply v)) (v : Value) :
    Keeps R (applyActions bare path actions v) := by
  induction actions generalizing v with
  | nil => exact keeps_pure hR v
  | cons action rest ih =>
      have ih := ih fun a ha => h a (List.mem_cons_of_mem _ ha)
      rw [applyActions]
      split
      · -- a presence action that waits
        exact ih v
      · exact ((h action List.mem_cons_self v).adaptExcept).bind hR ih

theorem applyActions_bare {actions : List Action} (h : ∀ action ∈ actions, action.isPresence = false)
    (bare : Bool) (path : ParamPath) (v : Value) :
    applyActions bare path actions v = applyActions false path actions v := by
  induction actions generalizing v with
  | nil => rfl
  | cons action rest ih =>
      have hfirst : action.isPresence = false := h action List.mem_cons_self
      simp only [applyActions, hfirst, Bool.false_and, Bool.false_eq_true, if_false]
      congr 1
      funext w
      exact ih (fun a ha => h a (List.mem_cons_of_mem _ ha)) w

/-- Without presence actions it does not matter whether the flag came without a value. -/
theorem finish_bare {attrs : Attributes}
    (h : ∀ action ∈ attrs.actions, action.isPresence = false) (bare : Bool) (path : ParamPath)
    (v : Value) : finish attrs bare path v = finish attrs false path v := by
  rw [finish, finish, applyActions_bare h]

/-- Only actions reach the file system when a node is finished. -/
theorem keeps_finish (hR : RunRelation R) {attrs : Attributes} {bare : Bool} {path : ParamPath}
    (h : ∀ action ∈ attrs.actions, ∀ v, Keeps R (action.apply v)) (v : Value) :
    Keeps R (finish attrs bare path v) := by
  have checks : ∀ w, Keeps R (runChecks path w attrs.checks) := by
    intro w fs a fs' h
    cases keeps_runChecks path w attrs.checks fs a fs' h
    exact hR.refl fs
  rw [finish]
  split
  · exact keeps_pure hR v
  · exact (keeps_applyActions hR h v).bind hR fun w =>
      (checks w).bind hR fun _ => keeps_pure hR w

/-- Does the action, if it succeeds, give back the value that it is applied to? -/
def KeepsValue (v : Value) (action : Action) : Prop :=
  ∀ fs w fs', (action.apply v).run fs = .ok w fs' → w = v

theorem keepsValue_makeDir (v : Value) (mode : Option Nat) (existOk : Bool) :
    KeepsValue v (.makeDir mode existOk) := by
  intro fs w fs' h
  rw [Action.apply] at h
  obtain ⟨_, fs₁, -, h⟩ := run_bind_ok.mp h
  exact (run_pure_ok.mp h).1

theorem keepsValue_makeList (items : List Value) : KeepsValue (.array items) .makeList := by
  intro fs w fs' h
  exact (run_pure_ok.mp h).1

theorem applyActions_value {bare : Bool} {path : ParamPath} {actions : List Action} {v w : Value}
    (h : ∀ action ∈ actions, KeepsValue v action)
    (run : (applyActions bare path actions v).run fs = .ok w fs') : w = v := by
  induction actions generalizing fs with
  | nil => exact (run_pure_ok.mp run).1
  | cons action rest ih =>
      have ih := fun fs => @ih fs fun a ha => h a (List.mem_cons_of_mem _ ha)
      rw [applyActions] at run
      split at run
      · exact ih fs run
      · obtain ⟨u, fs₁, h₁, h₂⟩ := run_bind_ok.mp run
        obtain rfl := h action List.mem_cons_self fs u fs₁ (run_adaptExcept_ok.mp h₁)
        exact ih fs₁ h₂

/-- A node whose actions give back the shaped value ends with it. -/
theorem finish_value {attrs : Attributes} {bare : Bool} {path : ParamPath} {v w : Value}
    (h : v.isNull = false → ∀ action ∈ attrs.actions, KeepsValue v action)
    (run : (finish attrs bare path v).run fs = .ok w fs') : w = v := by
  rw [finish] at run
  split at run
  · exact (run_pure_ok.mp run).1
  · next hv =>
    obtain ⟨u, fs₁, h₁, h₂⟩ := run_bind_ok.mp run
    obtain rfl := applyActions_value (h (by simpa using hv)) h₁
    obtain ⟨_, fs₂, -, h₃⟩ := run_bind_ok.mp h₂
    exact (run_pure_ok.mp h₃).1

/-- A node without actions ends with the shaped value. -/
theorem finish_plain {attrs : Attributes} (h : attrs.actions = []) {bare : Bool} {path : ParamPath}
    {v w : Value} (run : (finish attrs bare path v).run fs = .ok w fs') : w = v := by
  refine finish_value (fun _ action ha => ?_) run
  rw [h] at ha
  cases ha

/-- A value with the node's checks run on it. Null passes untouched. -/
def checked (attrs : Attributes) (path : ParamPath) (v : Value) : Resolution Value :=
  if v.isNull then pure v
  else do
    runChecks path v attrs.checks
    return v

/-- A node without actions is finished by its checks. -/
theorem finish_checked {attrs : Attributes} (h : attrs.actions = []) (bare : Bool)
    (path : ParamPath) (v : Value) : finish attrs bare path v = checked attrs path v := by
  rw [finish, h, checked]
  simp only [applyActions, pure_bind]

/-- A node without actions and checks is finished with the shaped value. -/
theorem finish_idle {attrs : Attributes} (h : attrs.actions = [] ∧ attrs.checks = []) (bare : Bool)
    (path : ParamPath) (v : Value) : finish attrs bare path v = pure v := by
  rw [finish, h.1, h.2]
  simp [applyActions, runChecks]

end Resolve

end ParamTree
