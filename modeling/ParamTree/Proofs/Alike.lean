import Mathlib.Data.List.Forall2
import ParamTree.Proofs.Traversal

/-!
# Two runs side by side

`Alike E R x y` says that two computations, run on the same file system, end in the same
way: both succeed with results in relation `R` or both fail with errors in relation `E`,
and they leave the same file system. It passes through every way of putting steps
together, and through the walk over a schema as far as that is the same for both.
-/

namespace ParamTree

/-! ## Results -/

/-- Two results of one kind, related by `E` as errors and by `R` as values. -/
inductive SameResult {ε α β : Type} (E : ε → ε → Prop) (R : α → β → Prop) :
    Except ε α → Except ε β → Prop
  | ok {a b} : R a b → SameResult E R (.ok a) (.ok b)
  | error {e e'} : E e e' → SameResult E R (.error e) (.error e')

theorem SameResult.bind {ε α β γ δ : Type} {E : ε → ε → Prop} {R : α → β → Prop} {S : γ → δ → Prop}
    {x : Except ε α} {y : Except ε β} {f : α → Except ε γ} {g : β → Except ε δ}
    (hx : SameResult E R x y) (hf : ∀ a b, R a b → SameResult E S (f a) (g b)) :
    SameResult E S (x >>= f) (y >>= g) := by
  cases hx with
  | ok h => exact hf _ _ h
  | error h => exact .error h

theorem sameResult_refl {ε α : Type} {E : ε → ε → Prop} {R : α → α → Prop} (hE : ∀ e, E e e)
    (hR : ∀ a, R a a) (x : Except ε α) : SameResult E R x x := by
  cases x with
  | ok a => exact .ok (hR a)
  | error e => exact .error (hE e)

namespace FileM

variable {ε ε' α β γ δ : Type}

/-- Two runs that end in the same way and leave one file system. -/
inductive SameOutcome (E : ε → ε → Prop) (R : α → β → Prop) :
    EStateM.Result ε FileSystem α → EStateM.Result ε FileSystem β → Prop
  | ok {a b fs} : R a b → SameOutcome E R (.ok a fs) (.ok b fs)
  | error {e e' fs} : E e e' → SameOutcome E R (.error e fs) (.error e' fs)

/-- Do the computations end alike on every file system? -/
def Alike (E : ε → ε → Prop) (R : α → β → Prop) (x : FileM ε α) (y : FileM ε β) : Prop :=
  ∀ fs, SameOutcome E R (x.run fs) (y.run fs)

variable {E : ε → ε → Prop} {R : α → β → Prop}

theorem alike_pure {a : α} {b : β} (h : R a b) : Alike E R (pure a) (pure b) :=
  fun _ => .ok h

theorem alike_throw {e e' : ε} (h : E e e') : Alike E R (throw e) (throw e') :=
  fun _ => .error h

theorem Alike.bind {S : γ → δ → Prop} {x : FileM ε α} {y : FileM ε β} {f : α → FileM ε γ}
    {g : β → FileM ε δ} (hx : Alike E R x y) (hf : ∀ a b, R a b → Alike E S (f a) (g b)) :
    Alike E S (x >>= f) (y >>= g) := by
  intro fs
  rw [EStateM.run_bind, EStateM.run_bind]
  have both := hx fs
  generalize x.run fs = r at both ⊢
  generalize y.run fs = r' at both ⊢
  cases both with
  | ok h => exact hf _ _ h _
  | error h => exact .error h

theorem Alike.imp {S : α → β → Prop} {x : FileM ε α} {y : FileM ε β} (h : Alike E R x y)
    (hR : ∀ a b, R a b → S a b) : Alike E S x y := by
  intro fs
  have both := h fs
  generalize x.run fs = r at both ⊢
  generalize y.run fs = r' at both ⊢
  cases both with
  | ok h => exact .ok (hR _ _ h)
  | error h => exact .error h

theorem Alike.adaptExcept {E' : ε' → ε' → Prop} {x : FileM ε α} {y : FileM ε β} {f g : ε → ε'}
    (h : Alike E R x y) (hE : ∀ e e', E e e' → E' (f e) (g e')) :
    Alike E' R (EStateM.adaptExcept f x) (EStateM.adaptExcept g y) := by
  intro fs
  rw [EStateM.run_adaptExcept, EStateM.run_adaptExcept]
  have both := h fs
  generalize x.run fs = r at both ⊢
  generalize y.run fs = r' at both ⊢
  cases both with
  | ok h => exact .ok h
  | error h => exact .error (hE _ _ h)

theorem alike_refl {R : α → α → Prop} (hE : ∀ e, E e e) (hR : ∀ a, R a a) (x : FileM ε α) :
    Alike E R x x := by
  intro fs
  cases x.run fs with
  | ok a fs' => exact .ok (hR a)
  | error e fs' => exact .error (hE e)

end FileM

open FileM

namespace Resolve

variable {E : ResolveError → ResolveError → Prop}

theorem alike_liftExcept {α β : Type} {R : α → β → Prop} {x : Except ResolveError α}
    {y : Except ResolveError β} (h : SameResult E R x y) : Alike E R (liftExcept x) (liftExcept y) := by
  cases h with
  | ok h => exact alike_pure h
  | error h => exact alike_throw h

/-! ## The walk -/

theorem alike_eachElement {R : Value → Value → Prop} {f : ParamPath → Value → Resolution Value}
    (hf : ∀ p v w, R v w → Alike E R (f p v) (f p w)) (path : ParamPath) (i : Nat)
    {vs ws : List Value} (h : List.Forall₂ R vs ws) :
    Alike E (List.Forall₂ R) (eachElement f path i vs) (eachElement f path i ws) := by
  induction h generalizing i with
  | nil => exact alike_pure .nil
  | cons head _ ih =>
      refine (hf _ _ _ head).bind fun v w hvw => ?_
      exact (ih (i + 1)).bind fun vs ws hrest => alike_pure (.cons hvw hrest)

/-- Fields with the same keys one by one and values in relation. -/
def SameFields (R : Value → Value → Prop) (fields fields' : Entries) : Prop :=
  List.Forall₂ (fun p q => p.1 = q.1 ∧ R p.2 q.2) fields fields'

theorem SameFields.keys {R : Value → Value → Prop} {fields fields' : Entries}
    (h : SameFields R fields fields') : fields.map Prod.fst = fields'.map Prod.fst := by
  induction h with
  | nil => rfl
  | cons head _ ih => rw [List.map_cons, List.map_cons, head.1, ih]

theorem SameFields.values {R : Value → Value → Prop} {fields fields' : Entries}
    (h : SameFields R fields fields') (distinct : (fields.map Prod.fst).Nodup) {key : String}
    {v w : Value} (hv : (key, v) ∈ fields) (hw : (key, w) ∈ fields') : R v w := by
  induction h with
  | nil => cases hv
  | cons head rest ih =>
      obtain ⟨hkey, hhead⟩ := head
      obtain ⟨hnew, distinct⟩ := List.nodup_cons.mp distinct
      have hrest : SameFields R _ _ := rest
      rcases List.mem_cons.mp hv with rfl | hv <;> rcases List.mem_cons.mp hw with rfl | hw
      · exact hhead
      · refine absurd ?_ hnew
        rw [hrest.keys]
        show key ∈ _
        exact List.mem_map_of_mem (f := Prod.fst) hw
      · refine absurd ?_ hnew
        rw [hkey]
        show key ∈ _
        exact List.mem_map_of_mem (f := Prod.fst) hv
      · exact ih distinct hv hw

theorem alike_fill {flags : Option FlagInput} {path : ParamPath} {R : Value → Value → Prop}
    {entries entries' : Entries} {properties : Properties}
    (h : ∀ p ∈ properties, Alike E R (property flags (path.key p.1) (entries.lookup p.1) p.2)
      (property flags (path.key p.1) (entries'.lookup p.1) p.2)) :
    Alike E (fun fields fields' => fields.map Prod.fst = properties.map Prod.fst ∧
        SameFields R fields fields')
      (fill flags path entries properties) (fill flags path entries' properties) := by
  induction properties with
  | nil =>
      rw [fill, fill]
      exact alike_pure ⟨rfl, .nil⟩
  | cons p rest ih =>
      rw [fill_cons, fill_cons]
      refine (h p List.mem_cons_self).bind fun v w hvw => ?_
      refine (ih fun q hq => h q (List.mem_cons_of_mem _ hq)).bind fun vs ws hrest => ?_
      exact alike_pure ⟨by simp [hrest.1], .cons ⟨rfl, hvw⟩ hrest.2⟩

end Resolve

end ParamTree
