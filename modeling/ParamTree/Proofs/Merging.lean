import Mathlib.Algebra.Order.BigOperators.Group.List
import Mathlib.Algebra.Order.Ring.Nat
import Mathlib.Data.List.Induction
import Mathlib.Data.List.TakeWhile
import ParamTree.Yaml.Tree

/-!
# What merge keys do

`merge?` gives back the tree itself exactly if no mapping of the tree has a merge key
(`merge?_self_iff`). Without a merge key it has nothing to do. With one it loses something:
the key goes with the mapping under it, and what comes instead, the entries of that mapping,
was in the tree before. `weight` counts what is in a tree, keys aside, so it only ever falls.
-/

namespace ParamTree.Yaml.Tree

/-- Has some mapping in the tree a merge key? Keys are not looked into. -/
inductive HasMergeKey : Tree → Prop
  | here {entries e} (member : e ∈ entries) (key : isMergeKey e.1 = true) :
      HasMergeKey (.mapping entries)
  | value {entries e} (member : e ∈ entries) (below : HasMergeKey e.2) :
      HasMergeKey (.mapping entries)
  | item {items t} (member : t ∈ items) (below : HasMergeKey t) : HasMergeKey (.sequence items)
  | content {tag t} (below : HasMergeKey t) : HasMergeKey (.tagged tag t)

/-! ## Weights -/

mutual

/-- How much is in a tree, keys aside. -/
def weight : Tree → Nat
  | .sequence items => 1 + weightItems items
  | .mapping entries => 1 + weightEntries entries
  | .tagged _ content => 1 + weight content
  | _ => 1

/-- How much is in the items of a sequence. -/
def weightItems : List Tree → Nat
  | [] => 0
  | t :: rest => weight t + weightItems rest

/-- How much is in the entries of a mapping. -/
def weightEntries : List (Tree × Tree) → Nat
  | [] => 0
  | (_, v) :: rest => 1 + weight v + weightEntries rest

end

theorem weightItems_eq_sum (items : List Tree) : weightItems items = (items.map weight).sum := by
  induction items with
  | nil => rw [weightItems, List.map_nil, List.sum_nil]
  | cons t rest ih => rw [weightItems, ih, List.map_cons, List.sum_cons]

theorem weightEntries_eq_sum (entries : List (Tree × Tree)) :
    weightEntries entries = (entries.map fun e => 1 + e.2.weight).sum := by
  induction entries with
  | nil => rw [weightEntries, List.map_nil, List.sum_nil]
  | cons e rest ih => rw [weightEntries, ih, List.map_cons, List.sum_cons]

theorem weight_lt_sequence {t : Tree} {items : List Tree} (h : t ∈ items) :
    t.weight < (sequence items).weight := by
  have := List.le_sum_of_mem (List.mem_map_of_mem (f := weight) h)
  rw [weight, weightItems_eq_sum]
  omega

theorem weight_lt_mapping {e : Tree × Tree} {entries : List (Tree × Tree)} (h : e ∈ entries) :
    e.2.weight < (mapping entries).weight := by
  have := List.le_sum_of_mem (List.mem_map_of_mem (f := fun e : Tree × Tree => 1 + e.2.weight) h)
  rw [weight, weightEntries_eq_sum]
  omega

/-- What holds of a tree as soon as it holds of all lighter ones holds of every tree. -/
theorem weightInduction {motive : Tree → Prop}
    (step : ∀ t, (∀ u, u.weight < t.weight → motive u) → motive t) (t : Tree) : motive t := by
  generalize hw : t.weight = w
  induction w using Nat.strongRecOn generalizing t with
  | ind w ih =>
      refine step t fun u hu => ih u.weight ?_ u rfl
      omega

/-! ## The functions on lists -/

theorem ownEntries_eq_map (entries : List (Tree × Tree)) :
    ownEntries entries = entries.map fun e => (e.1, if isMergeKey e.1 then none else merge? e.2) := by
  induction entries with
  | nil => rw [ownEntries, List.map_nil]
  | cons e rest ih => rw [ownEntries, List.map_cons, ih]

theorem allEntries_eq_map (entries : List (Tree × Tree)) :
    allEntries entries = entries.map fun e => (e.1, merge? e.2) := by
  induction entries with
  | nil => rw [allEntries, List.map_nil]
  | cons e rest ih => rw [allEntries, List.map_cons, ih]

/-- The first merge key decides what is merged. -/
theorem mergedEntries?_eq (entries : List (Tree × Tree)) :
    mergedEntries? entries = match entries.find? (isMergeKey ·.1) with
      | none => some []
      | some e => namedEntries? e.2 := by
  induction entries with
  | nil => rw [mergedEntries?, List.find?_nil]
  | cons e rest ih =>
      rw [mergedEntries?, List.find?_cons]
      cases isMergeKey e.1 with
      | true => rfl
      | false => exact ih

/-- Without a merge key all values are an entry's own. -/
theorem ownEntries_free {entries : List (Tree × Tree)} (free : ∀ e ∈ entries, isMergeKey e.1 = false) :
    ownEntries entries = allEntries entries := by
  rw [ownEntries_eq_map, allEntries_eq_map]
  refine List.map_congr_left fun e he => ?_
  rw [free e he]
  rfl

theorem dropMergeKey_free {α : Type} {entries : List (Tree × α)}
    (free : ∀ e ∈ entries, isMergeKey e.1 = false) : dropMergeKey entries = entries := by
  have none : ∀ e ∈ entries, (!isMergeKey e.1) = true := by
    intro e he
    rw [free e he]
    rfl
  unfold dropMergeKey
  rw [List.takeWhile_eq_self_iff.mpr none, List.dropWhile_eq_nil_iff.mpr none]

/-- Without its first merge key a mapping has the other entries, if in another order. -/
theorem dropMergeKey_perm {α : Type} {before after : List (Tree × α)} {e : Tree × α}
    (free : ∀ e ∈ before, isMergeKey e.1 = false) (key : isMergeKey e.1 = true) :
    (dropMergeKey (before ++ e :: after)).Perm (before ++ after) := by
  have none : ∀ e ∈ before, (!isMergeKey e.1) = true := by
    intro e he
    rw [free e he]
    rfl
  unfold dropMergeKey
  rw [List.takeWhile_append_of_pos none, List.dropWhile_append_of_pos none,
    List.takeWhile_cons_of_neg (by simp [key]), List.dropWhile_cons_of_neg (by simp [key]),
    List.append_nil]
  cases after using List.reverseRecOn with
  | nil =>
      rw [List.append_nil]
      exact List.Perm.refl before
  | append_singleton rest last =>
      simp only [List.getLast?_concat, List.dropLast_concat]
      exact (List.perm_append_singleton last rest).symm.append_left before

theorem valued_iff (entries : List (Tree × Option Tree)) (merged : List (Tree × Tree)) :
    entries.mapM (m := Option) (fun (k, v) => return (k, ← v)) = some merged ↔
      entries = merged.map fun e => (e.1, some e.2) := by
  induction entries generalizing merged with
  | nil => cases merged <;> simp
  | cons e rest ih =>
      generalize hrest : rest.mapM (m := Option) (fun (k, v) => return (k, ← v)) = found at ih
      rw [List.mapM_cons, hrest]
      obtain ⟨k, v⟩ := e
      cases v with
      | none => cases merged <;> simp
      | some v => cases merged <;> cases found <;> simp [← ih, Prod.ext_iff, and_assoc]

/-- A mapping is made of entries that all have a value. -/
theorem mappingOf?_eq_some_iff (entries : List (Tree × Option Tree)) (t : Tree) :
    mappingOf? entries = some t ↔
      ∃ merged, t = .mapping merged ∧ entries = merged.map fun e => (e.1, some e.2) := by
  constructor
  · intro h
    obtain ⟨merged, hall, ⟨⟩⟩ := Option.bind_eq_some_iff.mp h
    exact ⟨merged, rfl, (valued_iff entries merged).mp hall⟩
  · rintro ⟨merged, rfl, h⟩
    exact Option.bind_eq_some_iff.mpr ⟨merged, (valued_iff entries merged).mpr h, rfl⟩

/-- A mapping without a merge key of its own keeps its entries. -/
theorem merge?_keyless {entries : List (Tree × Tree)} (free : ∀ e ∈ entries, isMergeKey e.1 = false) :
    merge? (.mapping entries) = mappingOf? (allEntries entries) := by
  have nothing : mergedEntries? entries = some [] := by
    rw [mergedEntries?_eq, List.find?_eq_none.mpr fun e he => by simp [free e he]]
  have kept : dropMergeKey (allEntries entries) = allEntries entries := by
    refine dropMergeKey_free ?_
    rw [allEntries_eq_map]
    exact List.forall_mem_map.mpr free
  rw [merge?, nothing, ownEntries_free free]
  show mappingOf? (dropMergeKey (allEntries entries)) = _
  rw [kept]

theorem mergeItems?_free {items : List Tree} (h : ∀ t ∈ items, merge? t = some t) :
    mergeItems? items = some items := by
  induction items with
  | nil => rw [mergeItems?]
  | cons first rest ih =>
      rw [mergeItems?, h first List.mem_cons_self, ih fun t ht => h t (List.mem_cons_of_mem _ ht)]

theorem mappingOf?_free {entries : List (Tree × Tree)} (h : ∀ e ∈ entries, merge? e.2 = some e.2) :
    mappingOf? (allEntries entries) = some (.mapping entries) := by
  rw [mappingOf?_eq_some_iff, allEntries_eq_map]
  exact ⟨entries, rfl, List.map_congr_left fun e he => by rw [h e he]⟩

theorem merge?_free (t : Tree) (free : ¬t.HasMergeKey) : t.merge? = some t := by
  induction t using weightInduction with
  | step t ih =>
      cases t with
      | sequence items =>
          have below : ∀ t ∈ items, merge? t = some t := fun t ht =>
            ih t (weight_lt_sequence ht) fun has => free (.item ht has)
          rw [merge?, mergeItems?_free below]
          rfl
      | mapping entries =>
          have noKey : ∀ e ∈ entries, isMergeKey e.1 = false := by
            intro e he
            cases hkey : isMergeKey e.1 with
            | false => rfl
            | true => exact absurd (.here he hkey) free
          rw [merge?_keyless noKey]
          exact mappingOf?_free fun e he =>
            ih e.2 (weight_lt_mapping he) fun has => free (.value he has)
      | tagged tag content =>
          rw [merge?, ih content (by rw [weight]; omega) fun has => free (.content has)]
          rfl
      | null | bool | integer | float | text => rw [merge?] <;> simp

/-! ## Trees with merge keys -/

/-- How much is in a tree that may be missing. -/
def foundWeight (t : Option Tree) : Nat := t.elim 0 weight

/-- How much is in entries whose values may be missing. -/
def foundWeights (entries : List (Tree × Option Tree)) : Nat :=
  (entries.map fun e => 1 + foundWeight e.2).sum

theorem foundWeights_append (before after : List (Tree × Option Tree)) :
    foundWeights (before ++ after) = foundWeights before + foundWeights after := by
  rw [foundWeights, List.map_append, List.sum_append]
  rfl

theorem foundWeight_mappingOf? (entries : List (Tree × Option Tree)) :
    foundWeight (mappingOf? entries) ≤ 1 + foundWeights entries := by
  cases hmapping : mappingOf? entries with
  | none => exact Nat.zero_le _
  | some t =>
      obtain ⟨merged, rfl, rfl⟩ := (mappingOf?_eq_some_iff entries t).mp hmapping
      show weight (.mapping merged) ≤ _
      rw [weight, weightEntries_eq_sum, foundWeights, List.map_map]
      exact Nat.le_refl _

/-- Each entry is taken once, if it is taken. -/
theorem foundWeights_addMissing (entries more : List (Tree × Option Tree)) :
    foundWeights (addMissing entries more) ≤ foundWeights (entries ++ more) := by
  unfold addMissing
  induction more generalizing entries with
  | nil => rw [List.append_nil, List.foldl_nil]
  | cons e rest ih =>
      rw [List.foldl_cons]
      split
      · have taken := ih entries
        simp only [foundWeights, List.map_append, List.sum_append, List.map_cons, List.sum_cons]
          at taken ⊢
        omega
      · rw [List.append_cons entries e rest]
        exact ih (entries ++ [e])

/-- Does merging make a tree no heavier, and lighter if it has a merge key? -/
def Lightens (t : Tree) : Prop :=
  foundWeight t.merge? ≤ t.weight ∧ (t.HasMergeKey → foundWeight t.merge? < t.weight)

theorem foundWeights_allEntries {entries : List (Tree × Tree)} (h : ∀ e ∈ entries, Lightens e.2) :
    foundWeights (allEntries entries) ≤ weightEntries entries := by
  rw [allEntries_eq_map, foundWeights, List.map_map, weightEntries_eq_sum]
  exact List.sum_le_sum fun e he => Nat.add_le_add_left (h e he).1 1

theorem foundWeights_allEntries_lt {entries : List (Tree × Tree)} (h : ∀ e ∈ entries, Lightens e.2)
    {e : Tree × Tree} (he : e ∈ entries) (below : e.2.HasMergeKey) :
    foundWeights (allEntries entries) < weightEntries entries := by
  rw [allEntries_eq_map, foundWeights, List.map_map, weightEntries_eq_sum]
  exact List.sum_lt_sum _ _ (fun e he => Nat.add_le_add_left (h e he).1 1)
    ⟨e, he, Nat.add_lt_add_left ((h e he).2 below) 1⟩

theorem foundWeights_ownEntries {entries : List (Tree × Tree)} (h : ∀ e ∈ entries, Lightens e.2) :
    foundWeights (ownEntries entries) ≤ weightEntries entries := by
  rw [ownEntries_eq_map, foundWeights, List.map_map, weightEntries_eq_sum]
  refine List.sum_le_sum fun e he => Nat.add_le_add_left ?_ 1
  show foundWeight (if isMergeKey e.1 then none else e.2.merge?) ≤ _
  split
  · exact Nat.zero_le _
  · exact (h e he).1

theorem foundWeights_namedByItems? {items : List Tree} {more : List (Tree × Option Tree)}
    (h : ∀ t ∈ items, ∀ u, u.weight < t.weight → Lightens u) (named : namedByItems? items = some more) :
    foundWeights more ≤ weightItems items := by
  induction items generalizing more with
  | nil =>
      rw [namedByItems?] at named
      cases named
      exact Nat.zero_le _
  | cons first rest ih =>
      cases first with
      | mapping entries =>
          rw [namedByItems?] at named
          obtain ⟨others, hothers, rfl⟩ := Option.map_eq_some_iff.mp named
          have here := foundWeights_allEntries fun e he =>
            h _ List.mem_cons_self e.2 (weight_lt_mapping he)
          have there := ih (fun t ht => h t (List.mem_cons_of_mem _ ht)) hothers
          rw [foundWeights_append, weightItems, weight]
          omega
      | null | bool | integer | float | text | sequence | tagged =>
          simp only [namedByItems?, reduceCtorEq] at named

/-- The entries that a merge key names are lighter than what stands under it. -/
theorem foundWeights_namedEntries? {t : Tree} {more : List (Tree × Option Tree)}
    (h : ∀ u, u.weight < t.weight → Lightens u) (named : namedEntries? t = some more) :
    foundWeights more < t.weight := by
  cases t with
  | mapping entries =>
      rw [namedEntries?] at named
      cases named
      have := foundWeights_allEntries fun e he => h e.2 (weight_lt_mapping he)
      rw [weight]
      omega
  | sequence items =>
      rw [namedEntries?] at named
      have := foundWeights_namedByItems? (fun t ht u hu => h u (hu.trans (weight_lt_sequence ht))) named
      rw [weight]
      omega
  | null | bool | integer | float | text | tagged => simp only [namedEntries?, reduceCtorEq] at named

theorem foundWeight_mergeItems? (items : List Tree) :
    foundWeight ((mergeItems? items).map .sequence) ≤
      1 + (items.map fun t => foundWeight t.merge?).sum := by
  induction items with
  | nil =>
      rw [mergeItems?]
      exact Nat.le_refl _
  | cons first rest ih =>
      rw [mergeItems?, List.map_cons, List.sum_cons]
      cases hfirst : first.merge? with
      | none => exact Nat.zero_le _
      | some t =>
          cases hrest : mergeItems? rest with
          | none => exact Nat.zero_le _
          | some ts =>
              rw [hrest] at ih
              simp only [Option.map_some, foundWeight, Option.elim_some, weight, weightItems] at ih ⊢
              omega

/-- Without the merge key its value is not used. -/
theorem foundWeights_dropMergeKey {before after : List (Tree × Tree)} {e : Tree × Tree}
    (free : ∀ e ∈ before, isMergeKey e.1 = false) (key : isMergeKey e.1 = true) :
    foundWeights (dropMergeKey (ownEntries (before ++ e :: after))) =
      foundWeights (ownEntries before) + foundWeights (ownEntries after) := by
  have own : ownEntries (before ++ e :: after) =
      ownEntries before ++ (e.1, none) :: ownEntries after := by
    simp only [ownEntries_eq_map, List.map_append, List.map_cons, key, if_true]
  have free' : ∀ e ∈ ownEntries before, isMergeKey e.1 = false := by
    rw [ownEntries_eq_map]
    exact List.forall_mem_map.mpr free
  rw [own, ← foundWeights_append]
  exact ((dropMergeKey_perm (e := (e.1, none)) free' key).map _).sum_nat

/-- A merge key takes what stands under it away and brings less. -/
theorem foundWeight_merge?_keyed {before after : List (Tree × Tree)} {e : Tree × Tree}
    (free : ∀ e ∈ before, isMergeKey e.1 = false) (key : isMergeKey e.1 = true)
    (h : ∀ u, u.weight < (mapping (before ++ e :: after)).weight → Lightens u) :
    foundWeight (merge? (.mapping (before ++ e :: after))) <
      (mapping (before ++ e :: after)).weight := by
  have first : (before ++ e :: after).find? (isMergeKey ·.1) = some e :=
    List.find?_eq_some_iff_append.mpr ⟨key, before, after, rfl, by simpa using free⟩
  have named : mergedEntries? (before ++ e :: after) = namedEntries? e.2 := by
    rw [mergedEntries?_eq, first]
  rw [merge?, named]
  cases hnamed : namedEntries? e.2 with
  | none =>
      show 0 < _
      rw [weight]
      omega
  | some more =>
      have brought := foundWeights_namedEntries?
        (fun u hu => h u (hu.trans (weight_lt_mapping (by simp)))) hnamed
      have left : foundWeights (ownEntries before) ≤ _ := foundWeights_ownEntries fun e he =>
        h e.2 (weight_lt_mapping (by simp [he]))
      have right : foundWeights (ownEntries after) ≤ _ := foundWeights_ownEntries fun e he =>
        h e.2 (weight_lt_mapping (by simp [he]))
      have total : weight (.mapping (before ++ e :: after)) =
          1 + (weightEntries before + (1 + e.2.weight + weightEntries after)) := by
        simp only [weight, weightEntries_eq_sum, List.map_append, List.sum_append, List.map_cons,
          List.sum_cons]
      have merged := foundWeights_addMissing (dropMergeKey (ownEntries (before ++ e :: after))) more
      rw [foundWeights_append, foundWeights_dropMergeKey free key] at merged
      have made := foundWeight_mappingOf?
        (addMissing (dropMergeKey (ownEntries (before ++ e :: after))) more)
      show foundWeight (mappingOf? _) < _
      omega

theorem lightens_sequence {items : List Tree} (below : ∀ t ∈ items, Lightens t) :
    Lightens (.sequence items) := by
  have bound := foundWeight_mergeItems? items
  rw [Lightens, merge?, weight, weightItems_eq_sum]
  constructor
  · have := List.sum_le_sum fun t ht => (below t ht).1
    omega
  · rintro (_ | _ | ⟨hmem, has⟩)
    have := List.sum_lt_sum _ _ (fun t ht => (below t ht).1) ⟨_, hmem, (below _ hmem).2 has⟩
    omega

theorem lightens_keyless {entries : List (Tree × Tree)} (free : ∀ e ∈ entries, isMergeKey e.1 = false)
    (below : ∀ e ∈ entries, Lightens e.2) : Lightens (.mapping entries) := by
  have bound := foundWeight_mappingOf? (allEntries entries)
  rw [Lightens, merge?_keyless free, weight]
  constructor
  · have := foundWeights_allEntries below
    omega
  · rintro (⟨he, key⟩ | ⟨he, has⟩)
    · exact absurd (free _ he) (by simp [key])
    · have := foundWeights_allEntries_lt below he has
      omega

theorem lightens_tagged {tag : String} {content : Tree} (below : Lightens content) :
    Lightens (.tagged tag content) := by
  have bound : foundWeight ((merge? content).map (.tagged tag)) ≤ 1 + foundWeight (merge? content) := by
    cases merge? content with
    | none => exact Nat.zero_le _
    | some t => simp only [Option.map_some, foundWeight, Option.elim_some, weight, le_refl]
  rw [Lightens, merge?, weight]
  constructor
  · have := below.1
    omega
  · rintro (_ | _ | _ | has)
    have := below.2 has
    omega

/-- Merging makes no tree heavier, and every tree with a merge key lighter. -/
theorem lightens (t : Tree) : t.Lightens := by
  induction t using weightInduction with
  | step t ih =>
      cases t with
      | sequence items => exact lightens_sequence fun t ht => ih t (weight_lt_sequence ht)
      | mapping entries =>
          -- the first merge key, if there is one
          cases hfind : entries.find? (isMergeKey ·.1) with
          | none =>
              exact lightens_keyless (by simpa using hfind) fun e he => ih e.2 (weight_lt_mapping he)
          | some e =>
              obtain ⟨key, before, after, rfl, free⟩ := List.find?_eq_some_iff_append.mp hfind
              have lighter := foundWeight_merge?_keyed (by simpa using free) key ih
              exact ⟨lighter.le, fun _ => lighter⟩
      | tagged tag content => exact lightens_tagged (ih content (by rw [weight]; omega))
      | null | bool | integer | float | text => exact ⟨by rw [merge?] <;> simp [foundWeight], nofun⟩

/-- What is merged of a tree with a merge key is lighter. -/
theorem merge?_lighter {t t' : Tree} (has : t.HasMergeKey) (merged : t.merge? = some t') :
    t'.weight < t.weight := by
  have lighter := (lightens t).2 has
  rw [merged] at lighter
  exact lighter

/-- Merging leaves a tree alone exactly if it has no merge key. -/
theorem merge?_self_iff (t : Tree) : t.merge? = some t ↔ ¬t.HasMergeKey :=
  ⟨fun same has => Nat.lt_irrefl _ (merge?_lighter has same), merge?_free t⟩

end ParamTree.Yaml.Tree
