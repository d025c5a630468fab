import ParamTree.Proofs.Alike

/-!
# Values up to the order of keys

`Reordered v w` says that `w` is `v` with the keys of its mappings in another order, at any
depth. Whatever the resolver asks of a value has the same answer for both: its look-ups,
whether it is a scalar and which, whether it fits a node, what actions make of it. Where
an answer shows the value itself, the two answers are reordered too, and an undeclared key
that is reported may be another one of the same mapping (`SameFailure`).
-/

namespace ParamTree

open FileM

/-- Two values that differ at most in the order of keys inside mappings. -/
inductive Reordered : Value → Value → Prop
  | refl (v) : Reordered v v
  | array {vs ws} (length : vs.length = ws.length) (items : ∀ p ∈ vs.zip ws, Reordered p.1 p.2) :
      Reordered (.array vs) (.array ws)
  | object {es fs} (keys : (es.map Prod.fst).Perm (fs.map Prod.fst))
      (values : ∀ key v w, (key, v) ∈ es → (key, w) ∈ fs → Reordered v w) :
      Reordered (.object es) (.object fs)

/-- The same failure, found with another order of keys. -/
inductive SameFailure : ResolveError → ResolveError → Prop
  | same (e) : SameFailure e e
  /-- One mapping has undeclared keys, and another of them comes first. -/
  | unknownKey (path : ParamPath) (key key') :
      SameFailure (.unknownKey (path.key key)) (.unknownKey (path.key key'))
  | typeMismatch (path expected) {v w} (found : Reordered v w) :
      SameFailure (.typeMismatch path expected v) (.typeMismatch path expected w)
  | noAlternative (path alternatives) {v w} (found : Reordered v w) :
      SameFailure (.noAlternative path v alternatives) (.noAlternative path w alternatives)
  | invalidEnum (path allowed) {v w} (found : Reordered v w) :
      SameFailure (.invalidEnum path v allowed) (.invalidEnum path w allowed)
  | checkFailed (path check fault fault') :
      SameFailure (.checkFailed path check fault) (.checkFailed path check fault')
  | actionFailed (path action fault fault') :
      SameFailure (.actionFailed path action fault) (.actionFailed path action fault')

/-- Mappings with the same keys, and values in relation under each, are in relation under
every key that is looked up. -/
theorem lookup_rel {R : Value → Value → Prop} {es fs : Entries}
    (keys : (es.map Prod.fst).Perm (fs.map Prod.fst))
    (values : ∀ key v w, (key, v) ∈ es → (key, w) ∈ fs → R v w) (key : String) :
    Option.Rel R (es.lookup key) (fs.lookup key) := by
  have both : (es.lookup key).isSome = (fs.lookup key).isSome := by
    rw [Bool.eq_iff_iff, lookup_isSome_iff_mem, lookup_isSome_iff_mem]
    exact keys.mem_iff
  cases hv : es.lookup key with
  | none =>
      rw [hv] at both
      rw [Option.isSome_eq_false_iff.trans Option.isNone_iff_eq_none |>.mp both.symm]
      exact .none
  | some v =>
      rw [hv] at both
      obtain ⟨w, hw⟩ := Option.isSome_iff_exists.mp both.symm
      rw [hw]
      exact .some (values key v w (mem_of_lookup hv) (mem_of_lookup hw))

namespace Value

theorem sameItems_congr {us vs ws : List Value} (length : vs.length = ws.length)
    (items : ∀ p ∈ vs.zip ws, ∀ u : Value, u.sameAs p.1 = u.sameAs p.2) :
    sameItems us vs = sameItems us ws := by
  induction us generalizing vs ws with
  | nil => cases vs <;> cases ws <;> first | rfl | cases length
  | cons u us ih =>
      match vs, ws with
      | [], [] => rfl
      | v :: vs, w :: ws =>
          rw [sameItems, sameItems, items (v, w) List.mem_cons_self,
            ih (Nat.succ.inj length) fun p hp => items p (List.mem_cons_of_mem _ hp)]

theorem sameEntries_congr {us es fs : Entries}
    (h : ∀ key, Option.Rel (fun v w => ∀ u : Value, u.sameAs v = u.sameAs w) (es.lookup key)
      (fs.lookup key)) : sameEntries us es = sameEntries us fs := by
  induction us with
  | nil => rfl
  | cons entry rest ih =>
      obtain ⟨key, u⟩ := entry
      rw [sameEntries, sameEntries, ih]
      have both := h key
      generalize es.lookup key = v at both ⊢
      generalize fs.lookup key = w at both ⊢
      cases both with
      | none => rfl
      | some same => exact congrArg (· && sameEntries rest fs) (same u)

end Value

namespace Reordered

variable {v w : Value} {es fs : Entries}

/-! ## Looking at a value -/

theorem isNull (h : Reordered v w) : v.isNull = w.isNull := by
  cases h <;> rfl

theorem ofItems {vs ws : List Value} (h : List.Forall₂ Reordered vs ws) :
    Reordered (.array vs) (.array ws) :=
  .array h.length_eq fun _ hp => (List.forall₂_iff_zip.mp h).2 hp

theorem toItems {vs ws : List Value} (h : Reordered (.array vs) (.array ws)) :
    List.Forall₂ Reordered vs ws := by
  cases h with
  | refl => exact List.forall₂_same.mpr fun v _ => .refl v
  | array length items => exact List.forall₂_iff_zip.mpr ⟨length, items _⟩

theorem ofFields (h : Resolve.SameFields Reordered es fs) (distinct : (es.map Prod.fst).Nodup) :
    Reordered (.object es) (.object fs) :=
  .object (h.keys ▸ .refl _) fun _ _ _ hv hw => h.values distinct hv hw

theorem keys (h : Reordered (.object es) (.object fs)) : (es.map Prod.fst).Perm (fs.map Prod.fst) := by
  cases h with
  | refl => exact .refl _
  | object keys _ => exact keys

theorem lookup (h : Reordered (.object es) (.object fs)) (key : String) :
    Option.Rel Reordered (es.lookup key) (fs.lookup key) := by
  cases h with
  | refl =>
      cases es.lookup key with
      | none => exact .none
      | some v => exact .some (.refl v)
  | object keys values => exact lookup_rel keys values key

theorem all_keys (h : Reordered (.object es) (.object fs)) (p : String → Bool) :
    (es.all fun entry => p entry.1) = fs.all fun entry => p entry.1 := by
  have perm := h.keys.all_eq (f := p)
  rwa [List.all_map, List.all_map] at perm

/-- What a value says does not change with the order of its keys. -/
theorem sameAs (h : Reordered v w) (u : Value) : u.sameAs v = u.sameAs w := by
  induction h generalizing u with
  | refl => rfl
  | array length _ ih =>
      cases u with
      | array us => exact Value.sameItems_congr length ih
      | null | bool | number | string | object => rfl
  | object keys _ ih =>
      cases u with
      | object us =>
          have length := keys.length_eq
          rw [List.length_map, List.length_map] at length
          rw [Value.sameAs, Value.sameAs, length, Value.sameEntries_congr (lookup_rel keys ih)]
      | null | bool | number | string | array => rfl

/-- Apart from `any`, a scalar type takes no collection, and all else is the same value. -/
theorem coerce (h : Reordered v w) (type : Primitive) :
    Option.Rel Reordered (type.coerce v) (type.coerce w) := by
  cases type with
  | any => exact .some h
  | typed t =>
      cases h with
      | refl =>
          cases (Primitive.typed t).coerce v with
          | none => exact .none
          | some u => exact .some (.refl u)
      | array => cases t <;> exact .none
      | object => cases t <;> exact .none

theorem standsFor (h : Reordered v w) (literal : Value) : standsFor v literal = standsFor w literal := by
  have same := h.sameAs literal
  cases h with
  | refl => rfl
  | array | object =>
      unfold ParamTree.standsFor
      rw [same]
      cases literal <;> rfl

theorem enumMember (h : Reordered v w) (allowed : List Value) :
    enumMember v allowed = enumMember w allowed :=
  congrArg (fun p => allowed.find? p) (funext h.standsFor)

/-- A scalar node gets the same literal or reordered values. -/
theorem shapeScalar (h : Reordered v w) (type : Primitive) (choices : Option (List Value))
    (path : ParamPath) :
    SameResult SameFailure Reordered (Resolve.shapeScalar type choices path v)
      (Resolve.shapeScalar type choices path w) := by
  unfold Resolve.shapeScalar
  have both := h.coerce type
  generalize type.coerce v = a at both ⊢
  generalize type.coerce w = b at both ⊢
  cases both with
  | none => exact .error (.typeMismatch path _ h)
  | some read =>
      cases choices with
      | none => exact .ok read
      | some allowed =>
          simp only [read.enumMember]
          split
          · exact .ok (.refl _)
          · exact .error (.invalidEnum path allowed read)

/-! ## Fitting -/

theorem fitsScalar (h : Reordered v w) (type : Primitive) (choices : Option (List Value)) :
    Resolve.fitsScalar type choices v = Resolve.fitsScalar type choices w := by
  unfold Resolve.fitsScalar
  have both := h.coerce type
  generalize type.coerce v = a at both ⊢
  generalize type.coerce w = b at both ⊢
  cases both with
  | none => rfl
  | some read => simp only [read.enumMember]

/-- A value fits a node whatever the order of its keys. -/
theorem fits (h : Reordered v w) (wraps : Bool) (n : Node) :
    Resolve.fits wraps v n = Resolve.fits wraps w n := by
  induction n using Node.treeInduction with
  | object a properties =>
      rw [Resolve.fits, Resolve.fits, h.isNull]
      congr 1
      cases h with
      | refl => rfl
      | array => rfl
      | object keys values =>
          exact (Reordered.object keys values).all_keys fun key => (properties.lookup key).isSome
  | array a items =>
      rw [Resolve.fits, Resolve.fits, h.isNull]
      congr 1
      cases h <;> rfl
  | union a alternatives ih =>
      rw [Resolve.fits, Resolve.fits, h.isNull]
      congr 1
      induction alternatives with
      | nil => rfl
      | cons n rest ihRest =>
          rw [Resolve.fitsAny, Resolve.fitsAny, ih n List.mem_cons_self,
            ihRest fun m hm => ih m (List.mem_cons_of_mem _ hm)]
  | scalar a type choices =>
      rw [Resolve.fits, Resolve.fits, h.isNull, h.fitsScalar]

theorem wrapFor (h : Reordered v w) (n : Node) :
    Reordered (Resolve.wrapFor n v) (Resolve.wrapFor n w) := by
  cases n with
  | array =>
      cases h with
      | refl => exact .refl _
      | array length items => exact .array length items
      | object keys values => exact ofItems (.cons (.object keys values) .nil)
  | object | union | scalar => exact h

/-! ## What a node takes from a value -/

theorem supplied {given given' : Option Value} (h : Option.Rel Reordered given given')
    (properties : Properties) (path : ParamPath) :
    SameResult SameFailure (fun es fs => Reordered (.object es) (.object fs))
      (Resolve.supplied properties path given) (Resolve.supplied properties path given') := by
  cases h with
  | none => exact .ok (.refl _)
  | some h =>
      cases h with
      | refl => exact sameResult_refl .same (fun es => .refl (.object es)) _
      | array length items => exact .error (.typeMismatch path _ (.array length items))
      | @object es fs keys values =>
          -- either mapping has an undeclared key if the other has
          have both : (es.find? fun entry => (properties.lookup entry.1).isNone).isSome =
              (fs.find? fun entry => (properties.lookup entry.1).isNone).isSome := by
            rw [List.isSome_find?, List.isSome_find?, List.any_eq_not_all_not, List.any_eq_not_all_not,
              (Reordered.object keys values).all_keys fun key => !(properties.lookup key).isNone]
          cases hes : es.find? fun entry => (properties.lookup entry.1).isNone with
          | none =>
              cases hfs : fs.find? fun entry => (properties.lookup entry.1).isNone with
              | none =>
                  simp only [Resolve.supplied, hes, hfs]
                  exact .ok (.object keys values)
              | some q => rw [hes, hfs] at both; cases both
          | some p =>
              cases hfs : fs.find? fun entry => (properties.lookup entry.1).isNone with
              | none => rw [hes, hfs] at both; cases both
              | some q =>
                  simp only [Resolve.supplied, hes, hfs]
                  exact .error (.unknownKey path p.1 q.1)

theorem elementsOf (h : Reordered v w) (attrs : Attributes) (summary : String) (path : ParamPath) :
    SameResult SameFailure (List.Forall₂ Reordered) (Resolve.elementsOf attrs summary path v)
      (Resolve.elementsOf attrs summary path w) := by
  cases h with
  | refl => exact sameResult_refl .same (fun vs => List.forall₂_same.mpr fun v _ => .refl v) _
  | array length items => exact .ok (Reordered.array length items).toItems
  | object keys values =>
      have found := Reordered.object keys values
      cases hmakes : attrs.makesList with
      | true =>
          simp only [Resolve.elementsOf, hmakes, if_true]
          exact .ok (.cons found .nil)
      | false =>
          simp only [Resolve.elementsOf, hmakes, Bool.false_eq_true, if_false]
          exact .error (.typeMismatch path summary found)

/-! ## Actions and checks -/

theorem single (h : Reordered v w) (key : String) :
    Reordered (.object [(key, v)]) (.object [(key, w)]) :=
  ofFields (.cons ⟨rfl, h⟩ .nil) (by simp)

theorem alike_forEachPathIn {ε : Type} {notAPath : Value → ε} {f : String → FileM ε Unit}
    {vs ws : List Value} (length : vs.length = ws.length)
    (items : ∀ p ∈ vs.zip ws, Alike (fun _ _ => True) (fun _ _ => True) (forEachPath notAPath f p.1)
      (forEachPath notAPath f p.2)) :
    Alike (fun _ _ => True) (fun _ _ => True) (forEachPathIn notAPath f vs)
      (forEachPathIn notAPath f ws) := by
  induction vs generalizing ws with
  | nil =>
      obtain rfl := List.length_eq_zero_iff.mp length.symm
      exact alike_pure trivial
  | cons v vs ih =>
      cases ws with
      | nil => cases length
      | cons w ws =>
          rw [forEachPathIn, forEachPathIn]
          refine (items (v, w) List.mem_cons_self).bind fun _ _ _ => ?_
          exact ih (Nat.succ.inj length) fun p hp => items p (List.mem_cons_of_mem _ hp)

/-- A computation on every path of a value does not see the order of keys. -/
theorem alike_forEachPath {ε : Type} {notAPath : Value → ε} {f : String → FileM ε Unit}
    (h : Reordered v w) :
    Alike (fun _ _ => True) (fun _ _ => True) (forEachPath notAPath f v) (forEachPath notAPath f w) := by
  induction h with
  | refl => exact alike_refl (fun _ => trivial) (fun _ => trivial) _
  | array length _ ih =>
      rw [forEachPath, forEachPath]
      exact alike_forEachPathIn length ih
  | object => exact alike_throw trivial

theorem convertItems {target : ScalarType} {vs ws : List Value} (length : vs.length = ws.length)
    (items : ∀ p ∈ vs.zip ws, SameResult (fun _ _ => True) Reordered
      (ParamTree.convertLeaves target p.1) (ParamTree.convertLeaves target p.2)) :
    SameResult (fun _ _ => True) (List.Forall₂ Reordered) (ParamTree.convertItems target vs)
      (ParamTree.convertItems target ws) := by
  induction vs generalizing ws with
  | nil =>
      obtain rfl := List.length_eq_zero_iff.mp length.symm
      exact .ok .nil
  | cons v vs ih =>
      cases ws with
      | nil => cases length
      | cons w ws =>
          have rest := ih (Nat.succ.inj length) fun p hp => items p (List.mem_cons_of_mem _ hp)
          rw [ParamTree.convertItems, ParamTree.convertItems]
          refine (items (v, w) List.mem_cons_self).bind fun a b hab => ?_
          exact rest.bind fun as bs hrest => .ok (.cons hab hrest)

theorem convertLeaves (h : Reordered v w) (target : ScalarType) :
    SameResult (fun _ _ => True) Reordered (convertLeaves target v) (convertLeaves target w) := by
  induction h with
  | refl => exact sameResult_refl (fun _ => trivial) .refl _
  | array length _ ih =>
      rw [ParamTree.convertLeaves, ParamTree.convertLeaves]
      exact (convertItems length ih).bind fun as bs h => .ok (ofItems h)
  | object => cases target <;> exact .error trivial

theorem alike_apply (h : Reordered v w) (action : Action) :
    Alike (fun _ _ => True) Reordered (action.apply v) (action.apply w) := by
  cases action with
  | makeList =>
      cases h with
      | refl => exact alike_refl (fun _ => trivial) .refl _
      | array length items => exact alike_pure (.array length items)
      | object keys values => exact alike_pure (ofItems (.cons (.object keys values) .nil))
  | makeDict key =>
      cases h with
      | refl => exact alike_refl (fun _ => trivial) .refl _
      | array length items => exact alike_pure ((Reordered.array length items).single key)
      | object keys values => exact alike_pure (.object keys values)
  | setTrue | setFalse | setValue => exact alike_pure (.refl _)
  | makeDir mode existOk =>
      rw [Action.apply, Action.apply]
      exact h.alike_forEachPath.bind fun _ _ _ => alike_pure h
  | convert target =>
      rw [Action.apply, Action.apply]
      have both := h.convertLeaves target
      generalize ParamTree.convertLeaves target v = a at both ⊢
      generalize ParamTree.convertLeaves target w = b at both ⊢
      cases both with
      | ok h => exact alike_pure h
      | error => exact alike_throw trivial

theorem alike_applyActions (h : Reordered v w) (bare : Bool) (path : ParamPath)
    (actions : List Action) :
    Alike SameFailure Reordered (Resolve.applyActions bare path actions v)
      (Resolve.applyActions bare path actions w) := by
  induction actions generalizing v w with
  | nil => exact alike_pure h
  | cons action rest ih =>
      rw [Resolve.applyActions, Resolve.applyActions]
      split
      · exact ih h
      · refine ((h.alike_apply action).adaptExcept fun fault fault' _ => ?_).bind fun a b hab => ih hab
        exact .actionFailed path action fault fault'

theorem alike_runChecks (h : Reordered v w) (path : ParamPath) (checks : List Check) :
    Alike SameFailure (fun _ _ => True) (Resolve.runChecks path v checks)
      (Resolve.runChecks path w checks) := by
  induction checks with
  | nil => exact alike_pure trivial
  | cons check rest ih =>
      rw [Resolve.runChecks, Resolve.runChecks]
      refine (h.alike_forEachPath.adaptExcept fun fault fault' _ => ?_).bind fun _ _ _ => ih
      exact .checkFailed path check fault fault'

theorem alike_finish (h : Reordered v w) (attrs : Attributes) (bare : Bool) (path : ParamPath) :
    Alike SameFailure Reordered (Resolve.finish attrs bare path v)
      (Resolve.finish attrs bare path w) := by
  rw [Resolve.finish, Resolve.finish, h.isNull]
  split
  · exact alike_pure h
  · refine (h.alike_applyActions bare path attrs.actions).bind fun a b hab => ?_
    exact (hab.alike_runChecks path attrs.checks).bind fun _ _ _ => alike_pure hab

end Reordered

end ParamTree
