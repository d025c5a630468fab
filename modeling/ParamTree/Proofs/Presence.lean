import ParamTree.Proofs.Precedence

/-!
# Presence values

A presence action takes part in a resolution twice. Its value is the raw value of a flag
that came without one, so it is shaped to the node like any other raw value. Then the
action runs and assigns its value once more, as it is written in the schema. So a bare
flag fails where its presence value in the config fails, and null comes through, but
otherwise the value that was shaped is dropped for the one that is written
(`property_bare`). The two agree where shaping leaves the presence value alone; in
`Schema.countSchema` it does not.
-/

namespace ParamTree

open FileM Resolve

/-- Every action is a presence action, and there is one. -/
structure Attributes.PresenceOnly (a : Attributes) : Prop where
  present : a.actions ≠ []
  presence : ∀ action ∈ a.actions, action.isPresence = true

/-- The last presence action has a value. -/
theorem Attributes.PresenceOnly.written {a : Attributes} (only : a.PresenceOnly) :
    ∃ p, a.presence? = some p := by
  obtain ⟨action, rest, hactions⟩ := List.exists_cons_of_ne_nil only.present
  have first : action ∈ a.actions := by simp [hactions]
  obtain ⟨p, hp⟩ := Option.isSome_iff_exists.mp (only.presence action first)
  rw [presence?_eq, hactions, List.filterMap_cons_some hp, List.getLast?_cons]
  exact ⟨_, rfl⟩

theorem Action.apply_presence {action : Action} {p : Value} (h : action.presence? = some p)
    (v : Value) : action.apply v = pure p := by
  cases action with
  | setTrue | setFalse | setValue =>
      cases h
      rfl
  | makeList | makeDict | makeDir | convert => cases h

namespace Resolve

variable {actions : List Action} {path : ParamPath}

/-- Presence actions wait for a flag without a value. -/
theorem applyActions_waiting (presence : ∀ action ∈ actions, action.isPresence = true) (v : Value) :
    applyActions false path actions v = pure v := by
  induction actions with
  | nil => rfl
  | cons action rest ih =>
      rw [applyActions, presence action List.mem_cons_self, Bool.not_false, Bool.and_self, if_pos rfl]
      exact ih fun other h => presence other (List.mem_cons_of_mem _ h)

/-- Of presence actions that run the last one assigns. -/
theorem applyActions_fired (presence : ∀ action ∈ actions, action.isPresence = true) (v : Value) :
    applyActions true path actions v =
      pure ((actions.filterMap Action.presence?).getLast?.getD v) := by
  induction actions generalizing v with
  | nil => rfl
  | cons action rest ih =>
      obtain ⟨p, hp⟩ := Option.isSome_iff_exists.mp (presence action List.mem_cons_self)
      have assigned : EStateM.adaptExcept (.actionFailed path action) (action.apply v) =
          (pure p : Resolution Value) := by
        rw [Action.apply_presence hp]
        rfl
      rw [applyActions, Bool.not_true, Bool.and_false, if_neg Bool.false_ne_true, assigned,
        pure_bind, ih fun other h => presence other (List.mem_cons_of_mem _ h),
        List.filterMap_cons_some hp, List.getLast?_cons]
      rfl

variable {a : Attributes}

/-- Without presence actions that run, the shaped value stays and is checked. -/
theorem finish_waiting (only : a.PresenceOnly) (v : Value) : finish a false path v = checked a path v := by
  rw [finish, applyActions_waiting only.presence, checked]
  simp only [pure_bind]

/-- A written value in place of a shaped one, with the node's checks run on it. Null
stays. -/
def assigned (attrs : Attributes) (path : ParamPath) (written shaped : Value) : Resolution Value :=
  if shaped.isNull then pure shaped
  else do
    runChecks path written attrs.checks
    return written

/-- Presence actions that run put the last value that is written in place of the shaped
one. -/
theorem finish_fired (only : a.PresenceOnly) {p : Value} (written : a.presence? = some p) (v : Value) :
    finish a true path v = assigned a path p v := by
  rw [presence?_eq] at written
  rw [finish, applyActions_fired only.presence, written, assigned]
  simp only [pure_bind, Option.getD_some]

/-- The two ways to end agree where shaping leaves the written value alone. -/
theorem assigned_eq_checked {p w : Value} (settled : w.isNull = false → w = p) :
    assigned a path p w = checked a path w := by
  cases hw : w.isNull with
  | true => rw [assigned, checked, if_pos hw, if_pos hw]
  | false => rw [← settled hw, assigned, checked]

end Resolve

/-! ## A flag without a value -/

/-- A bare flag with a presence action takes the raw value that the last one assigns. -/
theorem pick_bare {input : FlagInput} {leaf : Node} {here : ParamPath} {p : Value}
    (given : input.get? here.keys = some .bare) (written : leaf.attrs.presence? = some p)
    (entry : Option Value) :
    pick (some input) leaf entry here = .ok { value := p, bare := true } := by
  rw [pick_given given, rawOfGiven, written]

/-- **A bare flag and its presence value in the config.** Both are resolved from the
presence value, and fail alike where it cannot be shaped. Then the value in the config
is the shaped one, that of the flag the one that is written. -/
theorem property_bare {s : Schema} (built : s.Built) {f : Flag} (hf : f ∈ s.flags.flags)
    {leaf : Node} (hd : s.root.descend f.path = some leaf) (only : leaf.attrs.PresenceOnly)
    {tokens tokens' : List String} {input input' : FlagInput}
    (read : FlagInput.read s.flags tokens = .ok input)
    (read' : FlagInput.read s.flags tokens' = .ok input')
    (bare : s.flags.lastValues f tokens = some []) (absent : s.flags.lastValues f tokens' = none) :
    ∃ p, leaf.attrs.presence? = some p ∧
      (∀ entry, property (some input) f.paramPath entry leaf =
        shape f.paramPath p leaf >>= assigned leaf.attrs f.paramPath p) ∧
      (property (some input') f.paramPath (some p) leaf =
        shape f.paramPath p leaf >>= checked leaf.attrs f.paramPath) ∧
      ((∀ fs w fs', (shape f.paramPath p leaf).run fs = .ok w fs' → w.isNull = false → w = p) →
        ∀ entry, property (some input) f.paramPath entry leaf =
          property (some input') f.paramPath (some p) leaf) := by
  obtain ⟨p, written⟩ := only.written
  have hl : leaf.isObject = false := by
    obtain ⟨other, _, -, -, hother, hl⟩ := built.flag_leaf hf
    cases hd.symm.trans hother
    exact hl
  have hkeys : f.paramPath.keys = f.path := ParamPath.keys_ofKeys f.path
  have given := FlagInput.read_get?_bare built.unambiguous read hf bare
  have silent := FlagInput.read_get?_absent built.unambiguous read' hf absent
  rw [← hkeys] at given silent
  have unflagged : (some input').bind (·.get? f.paramPath.keys) = none := silent
  have flagged : ∀ entry, property (some input) f.paramPath entry leaf =
      shape f.paramPath p leaf >>= assigned leaf.attrs f.paramPath p := by
    intro entry
    rw [property_leaf hl, pick_bare given written]
    exact congrArg (shape f.paramPath p leaf >>= ·) (funext (finish_fired only written))
  have configured : property (some input') f.paramPath (some p) leaf =
      shape f.paramPath p leaf >>= checked leaf.attrs f.paramPath := by
    rw [property_entry hl unflagged]
    exact congrArg (shape f.paramPath p leaf >>= ·) (funext (finish_waiting only))
  refine ⟨p, written, flagged, configured, fun settled entry => ?_⟩
  rw [flagged, configured]
  exact bind_congr_results fun fs w fs' run => assigned_eq_checked (settled fs w fs' run)

namespace Schema

/-- An integer whose presence value is written as a text. -/
def countNode : Node := .scalar { actions := [.setValue (.string "3")] } (.typed .integer) none

/-- The integer as the one parameter of a document. -/
def countDocument : Value :=
  .object [("properties", .object [
    ("count", .object [
      ("type", .string "integer"), ("x-action", .object [("SetValue", .string "3")])])])]

/-- The schema of the document. -/
def countSchema : Schema where
  title := none
  description := none
  root := .object {} [("count", countNode)]
  flags := ⟨[.ofNode countNode ["count"] "count"]⟩

theorem countSchema_built : countSchema.Built := by
  refine ⟨countDocument, ?_, ofValue_object_iff.mpr ⟨?_, rfl, ?_, rfl, rfl⟩⟩
  · simp [countDocument, Value.WellFormed, Value.WellFormedEntries]
  · cbv
  · cbv

/-- The flag of the integer. -/
def countFlag : Flag := .ofNode countNode ["count"] "count"

theorem property_bare_count :
    countFlag ∈ countSchema.flags.flags ∧
      countSchema.root.descend countFlag.path = some countNode ∧ countNode.attrs.PresenceOnly ∧
      FlagInput.read countSchema.flags ["--count"] = .ok ⟨[(["count"], .bare)]⟩ ∧
      FlagInput.read countSchema.flags [] = .ok {} ∧
      countSchema.flags.lastValues countFlag ["--count"] = some [] ∧
      countSchema.flags.lastValues countFlag [] = none ∧
      ∃ p, countNode.attrs.presence? = some p ∧
        (∀ entry, property (some ⟨[(["count"], .bare)]⟩) countFlag.paramPath entry countNode =
          shape countFlag.paramPath p countNode >>= assigned countNode.attrs countFlag.paramPath p) ∧
        (property (some {}) countFlag.paramPath (some p) countNode =
          shape countFlag.paramPath p countNode >>= checked countNode.attrs countFlag.paramPath) ∧
        ((∀ fs w fs', (shape countFlag.paramPath p countNode).run fs = .ok w fs' →
            w.isNull = false → w = p) →
          ∀ entry, property (some ⟨[(["count"], .bare)]⟩) countFlag.paramPath entry countNode =
            property (some {}) countFlag.paramPath (some p) countNode) := by
  have declared : countFlag ∈ countSchema.flags.flags := List.mem_singleton.mpr rfl
  have descends : countSchema.root.descend countFlag.path = some countNode := by cbv
  have only : countNode.attrs.PresenceOnly := ⟨by simp [countNode, Node.attrs], by decide⟩
  have read : FlagInput.read countSchema.flags ["--count"] = .ok ⟨[(["count"], .bare)]⟩ := by cbv
  have unread : FlagInput.read countSchema.flags [] = .ok {} := rfl
  have bare : countSchema.flags.lastValues countFlag ["--count"] = some [] := by cbv
  have absent : countSchema.flags.lastValues countFlag [] = none := rfl
  exact ⟨declared, descends, only, read, unread, bare, absent,
    property_bare countSchema_built declared descends only read unread bare absent⟩

/-- The bare flag gives the text, its presence value in the config the integer. -/
theorem presence_value_untyped :
    countSchema.Built ∧
      countSchema.root.descend ["count"] = some countNode ∧
      countNode.attrs.presence? = some (.string "3") ∧
      (countSchema.resolve none (some ["--count"])).run (.bare []) =
        .ok (.object [("count", .string "3")]) (.bare []) ∧
      (countSchema.resolve (some (.object [("count", .string "3")])) none).run (.bare []) =
        .ok (.object [("count", .number (.integer ⟨3, by decide, by decide⟩))]) (.bare []) :=
  ⟨countSchema_built, by cbv, rfl, by cbv, by cbv⟩

end Schema

end ParamTree
