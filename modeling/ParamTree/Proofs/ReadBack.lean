import Mathlib
import ParamTree.Document.Basic
import ParamTree.Proofs.Building
import ParamTree.Proofs.Merging
import ParamTree.Report.FlagTable

/-!
# Reading back what was written as YAML

A value that is written as YAML is read back as itself exactly if none of its mappings has
the key `<<` (`parse_formatParams_iff`): the printer writes that key like any other, and the
reader takes it for a merge key.

What the theorem asks of the text is that it says the value's own tree before merge keys are
applied. Two steps follow. `merge?` leaves that tree alone exactly if it has no merge key, and
what it makes of it otherwise is lighter. `toValue` reads the value's own tree as the value, and
no tree that is read as the value is lighter than the value's own. So a value that lost a merge
key is not read back.
-/

namespace ParamTree

/-- `v.HasKey key`: some mapping of `v`, at any depth, has the key. -/
inductive Value.HasKey (key : String) : Value → Prop
  | here {entries e} (member : e ∈ entries) (same : e.1 = key) : HasKey key (.object entries)
  | value {entries e} (member : e ∈ entries) (below : HasKey key e.2) : HasKey key (.object entries)
  | item {items v} (member : v ∈ items) (below : HasKey key v) : HasKey key (.array items)

namespace Yaml

/-- What a text says before merge keys are applied. -/
def composed? (text : String) : Option Tree := do
  let tokens ← Lexer.tokens? text
  let root ← Node.document? tokens
  Tree.ofNode? root

theorem content?_eq (text : String) : content? text = (composed? text).bind Tree.merge? := by
  simp only [content?, composed?, Option.bind_eq_bind, Option.bind_assoc]

namespace Tree

/-! ## The tree of a value -/

mutual

/-- The tree that says a value. -/
def ofValue : Value → Tree
  | .null => .null
  | .bool b => .bool b
  | .number (.integer n) => .integer n
  | .number (.float x) => .float (.finite x)
  | .string s => .text s
  | .array items => .sequence (ofItems items)
  | .object entries => .mapping (ofEntries entries)

/-- The trees that say the items of a sequence. -/
def ofItems : List Value → List Tree
  | [] => []
  | v :: rest => ofValue v :: ofItems rest

/-- The trees that say the entries of a mapping. -/
def ofEntries : Entries → List (Tree × Tree)
  | [] => []
  | (key, v) :: rest => (.text key, ofValue v) :: ofEntries rest

end

theorem ofItems_eq_map (items : List Value) : ofItems items = items.map ofValue := by
  induction items with
  | nil => rw [ofItems, List.map_nil]
  | cons v rest ih => rw [ofItems, List.map_cons, ih]

theorem ofEntries_eq_map (entries : Entries) :
    ofEntries entries = entries.map fun e => (.text e.1, ofValue e.2) := by
  induction entries with
  | nil => rw [ofEntries, List.map_nil]
  | cons e rest ih => rw [ofEntries, List.map_cons, ih]

theorem ofValue_eq_mapping {v : Value} {entries : List (Tree × Tree)}
    (h : ofValue v = .mapping entries) :
    ∃ own, v = .object own ∧ entries = own.map fun e => (.text e.1, ofValue e.2) := by
  cases v with
  | object own =>
      rw [ofValue, ofEntries_eq_map] at h
      cases h
      exact ⟨own, rfl, rfl⟩
  | number n => cases n <;> cases h
  | null | bool | string | array => rw [ofValue] at h; cases h

theorem ofValue_eq_sequence {v : Value} {items : List Tree} (h : ofValue v = .sequence items) :
    ∃ own, v = .array own ∧ items = own.map ofValue := by
  cases v with
  | array own =>
      rw [ofValue, ofItems_eq_map] at h
      cases h
      exact ⟨own, rfl, rfl⟩
  | number n => cases n <;> cases h
  | null | bool | string | object => rw [ofValue] at h; cases h

theorem ofValue_ne_tagged (v : Value) {tag : String} {content : Tree} :
    ofValue v ≠ .tagged tag content := by
  rcases v with _ | _ | (_ | _) | _ | _ | _ <;> nofun

theorem isMergeKey_text (s : String) : isMergeKey (.text s) = true ↔ s = "<<" := by
  rw [isMergeKey, beq_iff_eq]

/-- The merge keys of a value's tree are its keys `<<`. -/
theorem hasMergeKey_ofValue (v : Value) : (ofValue v).HasMergeKey ↔ v.HasKey "<<" := by
  constructor
  · intro h
    generalize ht : ofValue v = t at h
    induction h generalizing v with
    | here member key =>
        obtain ⟨own, rfl, rfl⟩ := ofValue_eq_mapping ht
        obtain ⟨e, he, rfl⟩ := List.mem_map.mp member
        exact .here he ((isMergeKey_text e.1).mp key)
    | value member _ ih =>
        obtain ⟨own, rfl, rfl⟩ := ofValue_eq_mapping ht
        obtain ⟨e, he, rfl⟩ := List.mem_map.mp member
        exact .value he (ih e.2 rfl)
    | item member _ ih =>
        obtain ⟨own, rfl, rfl⟩ := ofValue_eq_sequence ht
        obtain ⟨u, hu, rfl⟩ := List.mem_map.mp member
        exact .item hu (ih u rfl)
    | content => exact absurd ht (ofValue_ne_tagged v)
  · intro h
    induction h with
    | here member same =>
        rw [ofValue, ofEntries_eq_map]
        exact .here (List.mem_map_of_mem member) ((isMergeKey_text _).mpr same)
    | value member _ ih =>
        rw [ofValue, ofEntries_eq_map]
        exact .value (List.mem_map_of_mem member) ih
    | item member _ ih =>
        rw [ofValue, ofItems_eq_map]
        exact .item (List.mem_map_of_mem member) ih

/-! ## The value of a tree -/

mutual

/-- The value's own tree is read as the value. -/
theorem toValue_ofValue : ∀ v : Value, v.WellFormed → (ofValue v).toValue = .ok v
  | .null, _ => rfl
  | .bool _, _ => rfl
  | .number (.integer _), _ => rfl
  | .number (.float _), _ => rfl
  | .string _, _ => rfl
  | .array items, h => by
      rw [ofValue, toValue, itemValues_ofItems items h]
      rfl
  | .object entries, h => by
      rw [ofValue, toValue, entryValues_ofEntries entries [] h.2 h.1]
      rfl

theorem itemValues_ofItems : ∀ items, Value.WellFormedItems items →
    itemValues (ofItems items) = .ok items
  | [], _ => rfl
  | v :: rest, h => by
      rw [ofItems, itemValues, toValue_ofValue v h.1, itemValues_ofItems rest h.2]
      rfl

/-- The entries are put one after the other, since no key stands twice. -/
theorem entryValues_ofEntries : ∀ (entries known : Entries), Value.WellFormedEntries entries →
    ((known ++ entries).map Prod.fst).Nodup →
      entryValues known (ofEntries entries) = .ok (known ++ entries)
  | [], known, _, _ => by rw [ofEntries, entryValues, List.append_nil]
  | (key, v) :: rest, known, h, distinct => by
      have new : key ∉ known.map Prod.fst := by
        intro hkey
        rw [List.map_append, List.nodup_append] at distinct
        exact distinct.2.2 key hkey key List.mem_cons_self rfl
      rw [List.append_cons] at distinct ⊢
      rw [ofEntries, entryValues, keyText, toValue_ofValue v h.1]
      show entryValues (known.put key v) (ofEntries rest) = _
      rw [Entries.put_new v new, entryValues_ofEntries rest _ h.2 distinct]

end

theorem weight_put (key : String) (v : Value) (entries : Entries) :
    weightEntries (ofEntries (entries.put key v)) ≤
      weightEntries (ofEntries entries) + (1 + (ofValue v).weight) := by
  induction entries with
  | nil => simp [Entries.put, ofEntries, weightEntries]
  | cons e rest ih =>
      rw [Entries.put]
      split
      · simp only [ofEntries, weightEntries]
        omega
      · simp only [ofEntries, weightEntries]
        omega

mutual

/-- A value's own tree is no heavier than any tree that is read as the value: such a tree may have
tags besides, and entries that a later one with the same key replaces. -/
theorem weight_ofValue_le : ∀ (t : Tree) (v : Value), t.toValue = .ok v → (ofValue v).weight ≤ t.weight
  | .null, _, rfl => Nat.le_refl _
  | .bool _, _, rfl => Nat.le_refl _
  | .integer _, _, rfl => Nat.le_refl _
  | .float (.finite _), _, rfl => Nat.le_refl _
  | .text _, _, rfl => Nat.le_refl _
  | .sequence items, v, h => by
      rw [toValue] at h
      obtain ⟨vs, hvs, ⟨⟩⟩ := except_bind_ok.mp h
      have := weight_ofItems_le items vs hvs
      rw [ofValue, weight, weight]
      omega
  | .mapping entries, v, h => by
      rw [toValue] at h
      obtain ⟨es, hes, ⟨⟩⟩ := except_bind_ok.mp h
      have := weight_ofEntries_le entries [] es hes
      rw [ofEntries, weightEntries] at this
      rw [ofValue, weight, weight]
      omega
  | .tagged _ content, v, h => by
      rw [toValue] at h
      have := weight_ofValue_le content v h
      rw [weight.eq_3]
      omega

theorem weight_ofItems_le : ∀ (items : List Tree) (vs : List Value), itemValues items = .ok vs →
    weightItems (ofItems vs) ≤ weightItems items
  | [], _, rfl => Nat.le_refl _
  | item :: rest, vs, h => by
      rw [itemValues] at h
      obtain ⟨v, hv, h⟩ := except_bind_ok.mp h
      obtain ⟨others, hothers, ⟨⟩⟩ := except_bind_ok.mp h
      have first := weight_ofValue_le item v hv
      have later := weight_ofItems_le rest others hothers
      rw [ofItems, weightItems, weightItems]
      omega

theorem weight_ofEntries_le : ∀ (entries : List (Tree × Tree)) (known all : Entries),
    entryValues known entries = .ok all →
      weightEntries (ofEntries all) ≤ weightEntries (ofEntries known) + weightEntries entries
  | [], known, _, rfl => Nat.le_refl _
  | (k, t) :: rest, known, all, h => by
      rw [entryValues] at h
      obtain ⟨key, -, h⟩ := except_bind_ok.mp h
      obtain ⟨v, hv, h⟩ := except_bind_ok.mp h
      have first := weight_ofValue_le t v hv
      have put := weight_put key v known
      have later := weight_ofEntries_le rest (known.put key v) all h
      rw [weightEntries]
      omega

end

/-- A value comes out of its own tree, merged, exactly if it has no key `<<`. -/
theorem merged_ofValue_iff {v : Value} (wf : v.WellFormed) :
    (∃ t, (ofValue v).merge? = some t ∧ t.toValue = .ok v) ↔ ¬v.HasKey "<<" := by
  rw [← hasMergeKey_ofValue]
  constructor
  · rintro ⟨t, merged, reads⟩ has
    have lighter := merge?_lighter has merged
    have heavier := weight_ofValue_le t v reads
    omega
  · intro free
    exact ⟨ofValue v, merge?_free _ free, toValue_ofValue v wf⟩

end Tree

end Yaml

/-! ## The text of a value -/

namespace Document

open Yaml

theorem parse_yaml_ok {text : String} {v : Value} :
    parse .yaml text = .ok v ↔ ∃ t, content? text = some t ∧ t.toValue = .ok v := by
  unfold parse
  cases content? text with
  | none => simp
  | some t =>
      cases h : t.toValue <;> simp [h, Except.mapError]

/-- Where the YAML text of a value says the value's own tree, it is read back as the value exactly
if no mapping in the value has the key `<<`. -/
theorem parse_formatParams_iff {v : Value} (wf : v.WellFormed)
    (composed : composed? (Report.formatParams v .yaml) = some (.ofValue v)) :
    parse .yaml (Report.formatParams v .yaml) = .ok v ↔ ¬v.HasKey "<<" := by
  rw [parse_yaml_ok, content?_eq, composed]
  exact Tree.merged_ofValue_iff wf

/-- The text `<<` may stand anywhere but in the place of a key. -/
theorem parse_formatParams_text :
    let v : Value := .object [("a", .object [("<", .array [.bool true, .string "<<"])])]
    v.WellFormed ∧ composed? (Report.formatParams v .yaml) = some (.ofValue v) ∧
      ¬v.HasKey "<<" ∧ parse .yaml (Report.formatParams v .yaml) = .ok v := by
  intro v
  have wf : v.WellFormed := by
    simp [v, Value.WellFormed, Value.WellFormedEntries, Value.WellFormedItems]
  have composed : composed? (Report.formatParams v .yaml) = some (.ofValue v) := by cbv
  have free : ¬v.HasKey "<<" := by
    rw [← Tree.hasMergeKey_ofValue, ← Tree.merge?_self_iff]
    cbv
  exact ⟨wf, composed, free, (parse_formatParams_iff wf composed).mpr free⟩

/-- A mapping under the key `<<` is written as such and read back as a mapping to merge. -/
theorem parse_formatParams_mergeKey :
    let v : Value := .object [("<<", .object [("a", .null)])]
    v.WellFormed ∧ composed? (Report.formatParams v .yaml) = some (.ofValue v) ∧
      parse .yaml (Report.formatParams v .yaml) = .ok (.object [("a", .null)]) ∧
      parse .yaml (Report.formatParams v .yaml) ≠ .ok v := by
  intro v
  have wf : v.WellFormed := by simp [v, Value.WellFormed, Value.WellFormedEntries]
  have composed : composed? (Report.formatParams v .yaml) = some (.ofValue v) := by cbv
  have merged : parse .yaml (Report.formatParams v .yaml) = .ok (.object [("a", .null)]) := by
    have tree : (Tree.ofValue v).merge? = some (.mapping [(.text "a", .null)]) := by cbv
    exact parse_yaml_ok.mpr ⟨_, by rw [content?_eq, composed]; exact tree, rfl⟩
  refine ⟨wf, composed, merged, ?_⟩
  rw [merged]
  decide

end Document

end ParamTree
