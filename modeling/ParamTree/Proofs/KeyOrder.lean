import ParamTree.Proofs.Failures
import ParamTree.Proofs.Flags
import ParamTree.Proofs.Reordering

/-!
# The order of keys in a config

The schema alone decides in which order properties are visited and written, so a config
whose keys come in another order resolves alike (`resolve_reordered`). The walk is taken
side by side over both configs: by induction on the node, whatever is taken from the one
and from the other is reordered.
-/

namespace ParamTree

open FileM Resolve

/-! ## The two failures -/

namespace SameFailure

variable {e e' : ResolveError}

/-- But for undeclared keys, both failures concern one path. -/
theorem path?_eq (h : SameFailure e e') (other : ∀ p, e ≠ .unknownKey p) : e'.path? = e.path? := by
  cases h with
  | unknownKey path key key' => exact absurd rfl (other _)
  | same | typeMismatch | noAlternative | invalidEnum | checkFailed | actionFailed => rfl

/-- Undeclared keys are keys of one mapping. -/
theorem up_eq (h : SameFailure e e') {p : ParamPath} (he : e = .unknownKey p) :
    ∃ p', e' = .unknownKey p' ∧ p'.up = p.up := by
  subst he
  cases h with
  | same => exact ⟨p, rfl, rfl⟩
  | unknownKey path key key' => exact ⟨path.key key', rfl, by simp⟩

end SameFailure

namespace Resolve

variable {flags : Option FlagInput} {path here : ParamPath} {v w : Value}
  {config config' : Option Value}

/-! ## The walk over both -/

theorem subtree_some (a : Attributes) (v : Value) :
    subtree a (some v) = if v.isNull then a.default else some v := by
  cases v <;> rfl

theorem subtree_reordered (a : Attributes) (h : Option.Rel Reordered config config') :
    Option.Rel Reordered (subtree a config) (subtree a config') := by
  have default : Option.Rel Reordered a.default a.default := by
    cases a.default with
    | none => exact .none
    | some v => exact .some (.refl v)
  cases h with
  | none => exact default
  | some h =>
      rw [subtree_some, subtree_some, h.isNull]
      split
      · exact default
      · exact .some h

theorem pick_reordered (n : Node) (h : Option.Rel Reordered config config') :
    SameResult SameFailure (fun raw raw' => raw.bare = raw'.bare ∧ Reordered raw.value raw'.value)
      (pick flags n config here) (pick flags n config' here) := by
  unfold pick
  split
  · exact .ok ⟨rfl, .refl _⟩
  · cases h with
    | none => exact sameResult_refl .same (fun raw => ⟨rfl, .refl raw.value⟩) _
    | some h => exact .ok ⟨rfl, h⟩

/-- Does the node take reordered values alike, be they shaped to it or its config entry? -/
structure TakesAlike (n : Node) : Prop where
  shaped : ∀ path v w, Reordered v w → Alike SameFailure Reordered (shape path v n) (shape path w n)
  entry : ∀ flags here config config', Option.Rel Reordered config config' →
    Alike SameFailure Reordered (property flags here config n) (property flags here config' n)

theorem alike_nodeValue {n : Node}
    (hs : ∀ path v w, Reordered v w → Alike SameFailure Reordered (shape path v n) (shape path w n))
    {raw raw' : Raw} (bare : raw.bare = raw'.bare) (h : Reordered raw.value raw'.value) :
    Alike SameFailure Reordered (nodeValue path n raw) (nodeValue path n raw') := by
  refine (hs path _ _ h).bind fun v w hvw => ?_
  rw [bare]
  exact hvw.alike_finish n.attrs raw'.bare path

theorem alike_shape {n : Node} (h : Reordered v w)
    (given : Alike SameFailure Reordered (shapeGiven path v n) (shapeGiven path w n)) :
    Alike SameFailure Reordered (shape path v n) (shape path w n) := by
  rw [shape_eq, shape_eq, h.isNull]
  split
  · exact alike_pure (.refl _)
  · exact given

/-- What a leaf takes from the config it takes by its shape. -/
theorem takesAlike_leaf {n : Node} (hn : n.isObject = false)
    (given : ∀ path v w, Reordered v w →
      Alike SameFailure Reordered (shapeGiven path v n) (shapeGiven path w n)) : TakesAlike n := by
  have hs : ∀ path v w, Reordered v w →
      Alike SameFailure Reordered (shape path v n) (shape path w n) :=
    fun path v w h => alike_shape h (given path v w h)
  refine ⟨hs, fun flags here config config' h => ?_⟩
  rw [property_leaf hn, property_leaf hn]
  exact (alike_liftExcept (pick_reordered n h)).bind fun raw raw' hraw =>
    alike_nodeValue hs hraw.1 hraw.2

theorem alike_contents {properties : Properties} (distinct : (properties.map Prod.fst).Nodup)
    (below : ∀ p ∈ properties, TakesAlike p.2) (h : Option.Rel Reordered config config') :
    Alike SameFailure (fun fields fields' => Reordered (.object fields) (.object fields'))
      (contents flags path properties config) (contents flags path properties config') := by
  refine (alike_liftExcept (Reordered.supplied h properties path)).bind fun es fs hes => ?_
  have filled := alike_fill fun p hp => (below p hp).entry flags (path.key p.1) _ _ (hes.lookup p.1)
  exact filled.imp fun fields fields' ⟨keys, same⟩ =>
    Reordered.ofFields same (keys ▸ distinct)

theorem alike_shapeFirst {alternatives : List Node} (wraps : Bool) (tried : List String)
    (below : ∀ n ∈ alternatives, TakesAlike n) (h : Reordered v w) :
    Alike SameFailure Reordered (shapeFirst wraps path v tried alternatives)
      (shapeFirst wraps path w tried alternatives) := by
  induction alternatives with
  | nil => exact alike_throw (.noAlternative path tried h)
  | cons n rest ih =>
      -- both values fit the same alternatives, so the same one is selected
      rw [shapeFirst_cons, shapeFirst_cons, h.fits]
      split
      · exact alike_nodeValue (below n List.mem_cons_self).shaped rfl (h.wrapFor n)
      · exact ih fun m hm => below m (List.mem_cons_of_mem _ hm)

/-- Every node takes reordered values alike, if no object declares a property twice. -/
theorem takesAlike {n : Node} (distinct : n.Every Node.DistinctKeys) : TakesAlike n := by
  induction n using Node.treeInduction with
  | object a properties ih =>
      have below : ∀ p ∈ properties, TakesAlike p.2 := fun p hp => ih p hp (distinct.property hp)
      constructor
      · intro path v w h
        exact alike_shape h ((alike_contents distinct.self below (.some h)).bind
          fun fields fields' hfields => alike_pure hfields)
      · intro flags here config config' h
        exact (alike_contents distinct.self below (subtree_reordered a h)).bind
          fun fields fields' hfields => hfields.alike_finish a false here
  | array a items ih =>
      refine takesAlike_leaf rfl fun path v w h => ?_
      refine (alike_liftExcept (h.elementsOf a _ path)).bind fun vs ws hvs => ?_
      refine (alike_eachElement (fun p v w h => ?_) path 0 hvs).bind fun us us' hus =>
        alike_pure (.ofItems hus)
      exact alike_nodeValue (ih distinct.items).shaped rfl h
  | union a alternatives ih =>
      refine takesAlike_leaf rfl fun path v w h => ?_
      exact alike_shapeFirst _ _ (fun n hn => ih n hn (distinct.alternative hn)) h
  | scalar a type choices =>
      refine takesAlike_leaf rfl fun path v w h => ?_
      exact alike_liftExcept (h.shapeScalar type choices path)

end Resolve

namespace Schema

/-- The runs for both configs end alike. -/
theorem alike_resolve {s : Schema} (built : s.Built) {config config' : Option Value}
    (h : Option.Rel Reordered config config') (tokens : Option (List String)) :
    Alike SameFailure Reordered (s.resolve config tokens) (s.resolve config' tokens) := by
  obtain ⟨a, properties, hroot⟩ := built.root_object
  have distinct := built.distinct
  rw [hroot] at distinct
  rw [resolve_eq, resolve_eq]
  refine (alike_refl .same (fun _ => rfl) _).bind fun input input' same => ?_
  obtain rfl : input = input' := same
  rw [resolveInput_eq, resolveInput_eq, hroot]
  have walk : Alike SameFailure (fun fields fields' => Reordered (.object fields) (.object fields'))
      (contents (some input) .root properties config)
      (contents (some input) .root properties config') :=
    alike_contents distinct.self (fun p hp => takesAlike (distinct.property hp)) h
  exact walk.bind fun fields fields' hfields => hfields.alike_finish a false .root

/-- **The order of keys in a config does not count.** Both resolutions succeed with values
that differ at most in the order of keys, or both fail in the same way at the same path;
where that is an undeclared key, at keys of the same mapping. Both leave the same files. -/
theorem resolve_reordered {s : Schema} (built : s.Built) {config config' : Value}
    (h : Reordered config config') (tokens : Option (List String)) (fs : FileSystem) :
    let run := (s.resolve (some config) tokens).run fs
    let run' := (s.resolve (some config') tokens).run fs
    (∃ v w fs', run = .ok v fs' ∧ run' = .ok w fs' ∧ Reordered v w) ∨
      ∃ e e' fs', run = .error e fs' ∧ run' = .error e' fs' ∧ SameFailure e e' ∧
        ((∀ p, e ≠ .unknownKey p) → e'.path? = e.path?) ∧
        ∀ p, e = .unknownKey p → ∃ p', e' = .unknownKey p' ∧ p'.up = p.up := by
  intro run run'
  have both : SameOutcome SameFailure Reordered run run' := alike_resolve built (.some h) tokens fs
  generalize run = r at both ⊢
  generalize run' = r' at both ⊢
  cases both with
  | ok hvw => exact .inl ⟨_, _, _, rfl, rfl, hvw⟩
  | error he => exact .inr ⟨_, _, _, rfl, rfl, he, he.path?_eq, fun p hp => he.up_eq hp⟩

/-- The sample config with its keys in the other order. -/
theorem resolve_reordered_training :
    let config := .object [("level", .string "7"), ("data", .object [("train", .string "a")])]
    trainingSchema.Built ∧ Reordered trainingConfig config ∧
      ∃ w, (trainingSchema.resolve (some config) (some trainingTokens)).run (.bare []) =
        .ok w (.bare []) ∧ Reordered trainingOutput w := by
  intro config
  have reordered : Reordered trainingConfig config := by
    refine .object (.swap _ _ _) fun key v w hv hw => ?_
    simp only [List.mem_cons, Prod.mk.injEq, List.not_mem_nil, or_false] at hv hw
    obtain ⟨rfl, rfl⟩ | ⟨rfl, rfl⟩ := hv <;> obtain ⟨hkey, rfl⟩ | ⟨hkey, rfl⟩ := hw <;>
      first | exact .refl _ | exact absurd hkey (by decide)
  refine ⟨trainingSchema_built, reordered, ?_⟩
  rcases resolve_reordered trainingSchema_built reordered (some trainingTokens) (.bare []) with
    ⟨v, w, fs', hv, hw, h⟩ | ⟨e, e', fs', he, -⟩
  · rw [trainingSchema_run] at hv
    cases hv
    exact ⟨w, hw, h⟩
  · rw [trainingSchema_run] at he
    cases he

end Schema

end ParamTree
