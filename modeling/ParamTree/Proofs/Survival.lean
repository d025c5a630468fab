import ParamTree.Proofs.Traversal

/-!
# Runs that survive a change

`Survives R x y` says that where `x` succeeds `y` does too, with a result in relation `R` and
the same file system. It passes through every way of putting steps together, as `Alike` does,
but leaves open what happens where `x` fails: there the change may help.
-/

namespace ParamTree

namespace FileM

variable {ε α β γ δ : Type}

/-- Does every success of the first run survive in the second? -/
def Survives (R : α → β → Prop) (x : FileM ε α) (y : FileM ε β) : Prop :=
  ∀ fs a fs', x.run fs = .ok a fs' → ∃ b, y.run fs = .ok b fs' ∧ R a b

variable {R : α → β → Prop} {S : γ → δ → Prop}

/-- A failure has nothing to survive. -/
theorem survives_throw (e : ε) (y : FileM ε β) : Survives R (throw e : FileM ε α) y :=
  fun _ _ _ run => absurd run run_throw_ok

theorem Survives.bind {x : FileM ε α} {y : FileM ε β} {f : α → FileM ε γ} {g : β → FileM ε δ}
    (hx : Survives R x y) (hf : ∀ a b, R a b → Survives S (f a) (g b)) :
    Survives S (x >>= f) (y >>= g) := by
  intro fs c fs' run
  obtain ⟨a, fs₁, ha, run⟩ := run_bind_ok.mp run
  obtain ⟨b, hb, hab⟩ := hx fs a fs₁ ha
  obtain ⟨d, hd, hcd⟩ := hf a b hab fs₁ c fs' run
  exact ⟨d, run_bind_ok.mpr ⟨b, fs₁, hb, hd⟩, hcd⟩

theorem survives_rfl (x : FileM ε α) : Survives Eq x x := fun _ a _ run => ⟨a, run, rfl⟩

theorem Survives.trans {x y z : FileM ε α} (h : Survives Eq x y) (h' : Survives Eq y z) :
    Survives Eq x z := by
  intro fs a fs' run
  obtain ⟨b, hb, rfl⟩ := h fs a fs' run
  exact h' fs a fs' hb

/-- Equal results go on alike. -/
theorem Survives.bind_eq {x y : FileM ε α} {f g : α → FileM ε γ} (hx : Survives Eq x y)
    (hf : ∀ a, Survives Eq (f a) (g a)) : Survives Eq (x >>= f) (y >>= g) :=
  hx.bind fun a _ same => same ▸ hf a

end FileM

open FileM

namespace Resolve

variable {α β : Type} {R : α → β → Prop}

theorem survives_liftExcept {x : Except ResolveError α} {y : Except ResolveError β}
    (h : ∀ a, x = .ok a → ∃ b, y = .ok b ∧ R a b) : Survives R (liftExcept x) (liftExcept y) := by
  intro fs a fs' run
  obtain ⟨ha, rfl⟩ := run_liftExcept_ok.mp run
  obtain ⟨b, hb, related⟩ := h a ha
  exact ⟨b, run_liftExcept_ok.mpr ⟨hb, rfl⟩, related⟩

theorem survives_eachElement {f g : ParamPath → Value → Resolution Value}
    (h : ∀ p v, Survives Eq (f p v) (g p v)) (path : ParamPath) (i : Nat) (vs : List Value) :
    Survives Eq (eachElement f path i vs) (eachElement g path i vs) := by
  induction vs generalizing i with
  | nil => exact survives_rfl _
  | cons v vs ih =>
      refine (h _ v).bind_eq fun w => ?_
      exact (ih (i + 1)).bind_eq fun ws => survives_rfl _

end Resolve

end ParamTree
