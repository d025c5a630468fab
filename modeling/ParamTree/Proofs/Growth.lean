import ParamTree.Proofs.Run

/-!
# File systems only grow

Actions make directories and remove nothing. `FileSystem.Extends` says that one
file system holds the entries of another, at the front and in order; what was found
is found again (`find?_extends`), and every action leaves an extension of the file
system that it met (`Action.keeps_apply`).
-/

namespace ParamTree

open FileM

namespace FileSystem

/-- Does `gs` hold what `fs` holds, with entries added at the end alone? -/
def Extends (fs gs : FileSystem) : Prop := gs.here = fs.here ∧ fs.entries <+: gs.entries

theorem Extends.refl (fs : FileSystem) : fs.Extends fs := ⟨rfl, List.prefix_rfl⟩

theorem Extends.trans {fs gs hs : FileSystem} (h₁ : fs.Extends gs) (h₂ : gs.Extends hs) :
    fs.Extends hs := ⟨h₂.1.trans h₁.1, h₁.2.trans h₂.2⟩

theorem extends_runRelation : RunRelation Extends := ⟨Extends.refl, Extends.trans⟩

theorem extends_add (fs : FileSystem) (loc : Location) (entry : FileEntry) :
    fs.Extends (fs.add loc entry) := ⟨rfl, List.prefix_append _ _⟩

/-- What stands at a location stays there. -/
theorem find?_extends {fs gs : FileSystem} (h : fs.Extends gs) {loc : Location} {entry : FileEntry}
    (hfind : fs.find? loc = some entry) : gs.find? loc = some entry := by
  unfold find? at hfind ⊢
  split at hfind
  · next hroot => rw [if_pos hroot, hfind]
  · next hroot =>
    rw [if_neg hroot]
    exact h.2.lookup_eq_some hfind

theorem makeDirectory_extends {fs gs : FileSystem} {mode : Nat} {r : Route}
    (h : fs.makeDirectory mode r = .ok gs) : fs.Extends gs := by
  unfold makeDirectory at h
  split at h
  · cases h
  · split at h
    · cases h
    · split at h
      · cases h
      · split at h
        · cases h
        · split at h
          · cases h
          · split at h
            · cases h
            · cases h
              exact extends_add fs _ _

/-- Making a directory and its parents removes nothing, whether it succeeds or not. -/
theorem makeTreeWithin_extends (mode fuel : Nat) (fs : FileSystem) (r : Route) :
    fs.Extends (makeTreeWithin mode fuel fs r).1 := by
  induction fuel generalizing fs r with
  | zero => exact .refl fs
  | succ fuel ih =>
      -- the parents are made first, so the directory is added to an extension
      unfold makeTreeWithin
      split
      · exact .refl fs
      · split
        · next gs hmake => exact makeDirectory_extends hmake
        · split
          · exact .refl fs
          · next parent hparent =>
            have hup := ih fs parent
            split
            · next gs failure heq =>
              rw [heq] at hup
              exact hup
            · next gs heq =>
              rw [heq] at hup
              split
              · next hs hmake => exact hup.trans (makeDirectory_extends hmake)
              · split <;> exact hup
        · split <;> exact .refl fs

theorem makeTree_extends (fs : FileSystem) (mode : Nat) (path : String) :
    fs.Extends (fs.makeTree mode path).1 := by
  unfold makeTree
  split
  · exact .refl fs
  · exact makeTreeWithin_extends _ _ _ _

end FileSystem

open FileSystem

theorem keeps_makeDirAt (mode : Option Nat) (existOk : Bool) (path : String) :
    Keeps Extends (makeDirAt mode existOk path) := by
  intro fs a gs h
  obtain ⟨seen, fs₁, hget, h⟩ := run_bind_ok.mp h
  cases hget
  split at h
  · split at h
    · obtain ⟨-, rfl⟩ := run_pure_ok.mp h
      exact .refl gs
    · exact absurd h run_throw_ok
  · obtain ⟨_, fs₂, hset, h⟩ := run_bind_ok.mp h
    cases hset
    have hmake := makeTree_extends fs (mode.getD defaultMode) path
    split at h
    · obtain ⟨-, rfl⟩ := run_pure_ok.mp h
      exact hmake
    · exact absurd h run_throw_ok

/-- An action removes nothing. -/
theorem Action.keeps_apply (action : Action) (v : Value) : Keeps Extends (action.apply v) := by
  have hR := extends_runRelation
  cases action with
  | makeList => cases v <;> exact keeps_pure hR _
  | makeDict key => cases v <;> exact keeps_pure hR _
  | setTrue | setFalse | setValue => exact keeps_pure hR _
  | makeDir mode existOk =>
      exact ((keeps_forEachPath hR (keeps_makeDirAt mode existOk)).1 v).bind hR fun _ =>
        keeps_pure hR v
  | convert target =>
      rw [Action.apply]
      split
      · exact keeps_pure hR _
      · exact keeps_throw _

end ParamTree
