import Mathlib
import ParamTree.Document.Basic
import ParamTree.Proofs.Building
import ParamTree.Proofs.Merging

/-!
# Keys that become texts

A tree has keys of any kind and a value has texts, so two keys of one mapping may get one
text, as `1` and `"1"` do. `Says` reads a value off a tree entry by entry and leaves open
what the entries of a mapping come to. `toValue` is the reading where a later entry replaces
an earlier one with the same text, in its place (`toValue_ok_iff`). So every entry is kept
exactly if no two keys of a mapping have one text. A tree is refused for other reasons
only: a number that is not finite, or a key that is a collection.
-/

namespace ParamTree

/-! ## Entries that replace each other -/

namespace Entries

/-- Are these the entries that `written` comes to where the first of several with one key
gives the place and the last gives the value? -/
def Replaced (written left : Entries) : Prop :=
  left.map (fun e => (e.1, some e.2)) =
    (written.map Prod.fst).eraseDups.map fun key => (key, written.reverse.lookup key)

/-- The entries put one after the other. -/
def putAll (known written : Entries) : Entries :=
  written.foldl (fun entries e => Entries.put e.1 e.2 entries) known

theorem putAll_concat (known written : Entries) (key : String) (v : Value) :
    putAll known (written ++ [(key, v)]) = (putAll known written).put key v := by
  rw [putAll, List.foldl_append, List.foldl_cons, List.foldl_nil, putAll]

theorem keys_putAll (written : Entries) :
    (putAll [] written).map Prod.fst = (written.map Prod.fst).eraseDups := by
  induction written using List.reverseRecOn with
  | nil => rfl
  | append_singleton written e ih =>
      obtain ⟨key, v⟩ := e
      rw [putAll_concat, keys_put, ih, List.map_append, List.eraseDups_append]
      by_cases known : key ∈ written.map Prod.fst
      · rw [if_pos (List.mem_eraseDups.mpr known)]
        simp [List.removeAll, known]
      · rw [if_neg (fun h => known (List.mem_eraseDups.mp h))]
        simp [List.removeAll, known, List.eraseDups_cons]

theorem lookup_putAll (written : Entries) (key : String) :
    (putAll [] written).lookup key = written.reverse.lookup key := by
  induction written using List.reverseRecOn with
  | nil => rfl
  | append_singleton written e ih =>
      obtain ⟨k, v⟩ := e
      rw [putAll_concat, lookup_put, ih, List.reverse_append, List.reverse_singleton,
        List.singleton_append, List.lookup_cons]
      by_cases h : key = k
      · simp [h]
      · simp [h, beq_false_of_ne h]

theorem nodup_putAll (written : Entries) : ((putAll [] written).map Prod.fst).Nodup := by
  induction written using List.reverseRecOn with
  | nil => exact List.nodup_nil
  | append_singleton written e ih =>
      rw [putAll_concat]
      exact nodup_put ih

/-- Entries with distinct keys are their keys with what is found under each. -/
theorem map_lookup {entries : Entries} (distinct : (entries.map Prod.fst).Nodup) :
    entries.map (fun e => (e.1, some e.2)) =
      (entries.map Prod.fst).map fun key => (key, entries.lookup key) := by
  rw [List.map_map]
  refine List.map_congr_left fun e he => ?_
  rw [Function.comp_apply, lookup_of_mem distinct he]

theorem replaced_iff {written left : Entries} : written.Replaced left ↔ left = putAll [] written := by
  have all : written.Replaced (putAll [] written) := by
    rw [Replaced, map_lookup (nodup_putAll written), keys_putAll]
    exact List.map_congr_left fun key _ => by rw [lookup_putAll]
  constructor
  · intro h
    refine (List.map_inj_right ?_).mp (h.trans all.symm)
    rintro ⟨k, v⟩ ⟨l, w⟩ same
    simpa using same
  · rintro rfl
    exact all

/-- Entries with distinct keys replace nothing. -/
theorem putAll_distinct {written : Entries} (distinct : (written.map Prod.fst).Nodup) :
    putAll [] written = written := by
  induction written using List.reverseRecOn with
  | nil => rfl
  | append_singleton written e ih =>
      obtain ⟨key, v⟩ := e
      rw [List.map_append, List.nodup_append] at distinct
      have new : key ∉ written.map Prod.fst := fun known =>
        distinct.2.2 key known key (List.mem_singleton_self key) rfl
      rw [putAll_concat, ih distinct.1, put_new v new]

/-- What comes to other entries with the same keys stays as it is. -/
theorem Replaced.eq_of_keys {written left : Entries} (h : written.Replaced left)
    (keys : written.map Prod.fst = left.map Prod.fst) : written = left := by
  rw [replaced_iff] at h
  have distinct := nodup_putAll written
  rw [← h, ← keys] at distinct
  rw [h, putAll_distinct distinct]

end Entries

namespace Yaml.Tree

variable {P : Entries → Entries → Prop} {t : Tree} {v : Value} {m : Misfit}

/-! ## Reading a value off a tree -/

/-- `t.Says P v`: the value says what the tree says, with tags left out and keys as texts.
`P` relates the entries of a mapping so written, one for each entry of the tree, to those of
the value. -/
inductive Says (P : Entries → Entries → Prop) : Tree → Value → Prop
  | null : Says P .null .null
  | bool (b) : Says P (.bool b) (.bool b)
  | integer (n) : Says P (.integer n) (.number (.integer n))
  | float (x) : Says P (.float (.finite x)) (.number (.float x))
  | text (s) : Says P (.text s) (.string s)
  | sequence {items vs} (length : items.length = vs.length)
      (each : ∀ p ∈ items.zip vs, Says P p.1 p.2) : Says P (.sequence items) (.array vs)
  | mapping {entries written left} (length : entries.length = written.length)
      (keys : ∀ p ∈ entries.zip written, keyText p.1.1 = .ok p.2.1)
      (each : ∀ p ∈ entries.zip written, Says P p.1.2 p.2.2) (final : P written left) :
      Says P (.mapping entries) (.object left)
  | tagged {tag content v} (h : Says P content v) : Says P (.tagged tag content) v

/-- Has some mapping of the tree two keys with one text? Keys are not looked into. -/
inductive Clashes : Tree → Prop
  | here {entries} (h : ¬(entries.map fun e : Tree × Tree => keyText e.1).Nodup) :
      Clashes (.mapping entries)
  | value {entries e} (member : e ∈ entries) (below : Clashes e.2) : Clashes (.mapping entries)
  | item {items t} (member : t ∈ items) (below : Clashes t) : Clashes (.sequence items)
  | content {tag t} (below : Clashes t) : Clashes (.tagged tag t)

/-- `t.HasMisfit m`: the misfit stands somewhere in the tree. -/
inductive HasMisfit (m : Misfit) : Tree → Prop
  | number {x} (h : ∀ y, x ≠ .finite y) (same : m = .number x) : HasMisfit m (.float x)
  | key {entries e} (member : e ∈ entries) (h : keyText e.1 = .error m) :
      HasMisfit m (.mapping entries)
  | value {entries e} (member : e ∈ entries) (below : HasMisfit m e.2) :
      HasMisfit m (.mapping entries)
  | item {items t} (member : t ∈ items) (below : HasMisfit m t) : HasMisfit m (.sequence items)
  | content {tag t} (below : HasMisfit m t) : HasMisfit m (.tagged tag t)

/-! ## Items and entries one by one -/

theorem itemValues_eq_mapM (items : List Tree) : itemValues items = items.mapM toValue := by
  induction items with
  | nil => rfl
  | cons t rest ih => rw [itemValues, ih, List.mapM_cons]

/-- Each entry is written with its key's text, and what is written is put. -/
theorem entryValues_ok_iff {known all : Entries} {entries : List (Tree × Tree)} :
    entryValues known entries = .ok all ↔ ∃ written : Entries, entries.length = written.length ∧
      (∀ p ∈ entries.zip written, keyText p.1.1 = .ok p.2.1 ∧ toValue p.1.2 = .ok p.2.2) ∧
      all = Entries.putAll known written := by
  induction entries generalizing known with
  | nil =>
      rw [entryValues]
      constructor
      · rintro ⟨⟩
        exact ⟨[], rfl, by simp, rfl⟩
      · rintro ⟨written, length, -, rfl⟩
        rw [List.length_eq_zero_iff.mp length.symm]
        rfl
  | cons e rest ih =>
      obtain ⟨k, t⟩ := e
      rw [entryValues, except_bind_ok]
      constructor
      · rintro ⟨key, hkey, h⟩
        obtain ⟨v, hv, h⟩ := except_bind_ok.mp h
        obtain ⟨written, length, each, rfl⟩ := ih.mp h
        refine ⟨(key, v) :: written, by simp [length], ?_, rfl⟩
        rw [List.zip_cons_cons]
        exact List.forall_mem_cons.mpr ⟨⟨hkey, hv⟩, each⟩
      · rintro ⟨written, length, each, rfl⟩
        cases written with
        | nil => cases length
        | cons w written =>
            rw [List.zip_cons_cons, List.forall_mem_cons] at each
            obtain ⟨⟨hkey, hv⟩, each⟩ := each
            refine ⟨w.1, hkey, except_bind_ok.mpr ⟨w.2, hv, ?_⟩⟩
            exact ih.mpr ⟨written, Nat.succ.inj length, each, rfl⟩

/-- The keys of a mapping as the texts that its entries are written with. -/
theorem map_keyText {entries : List (Tree × Tree)} {written : Entries}
    (length : entries.length = written.length)
    (keys : ∀ p ∈ entries.zip written, keyText p.1.1 = .ok p.2.1) :
    (entries.map fun e => keyText e.1) = (written.map Prod.fst).map .ok :=
  calc entries.map (fun e => keyText e.1)
      = ((entries.zip written).map Prod.fst).map fun e => keyText e.1 := by
        rw [List.map_fst_zip length.le]
    _ = ((entries.zip written).map Prod.snd).map fun w => .ok w.1 := by
        rw [List.map_map, List.map_map]
        exact List.map_congr_left keys
    _ = (written.map Prod.fst).map .ok := by
        rw [List.map_snd_zip length.ge, List.map_map]
        rfl

theorem toValue_ok_iff : t.toValue = .ok v ↔ t.Says Entries.Replaced v := by
  constructor
  · intro h
    induction t using weightInduction generalizing v with
    | step t ih =>
        cases t with
        | sequence items =>
            rw [toValue, except_bind_ok] at h
            obtain ⟨vs, hvs, h⟩ := h
            obtain rfl := except_pure_ok.mp h
            rw [itemValues_eq_mapM] at hvs
            obtain ⟨length, each⟩ := mapM_ok_iff.mp hvs
            exact .sequence length fun p hp =>
              ih p.1 (weight_lt_sequence (List.of_mem_zip hp).1) (each p hp)
        | mapping entries =>
            rw [toValue, except_bind_ok] at h
            obtain ⟨left, hleft, h⟩ := h
            obtain rfl := except_pure_ok.mp h
            obtain ⟨written, length, each, rfl⟩ := entryValues_ok_iff.mp hleft
            exact .mapping length (fun p hp => (each p hp).1)
              (fun p hp => ih p.1.2 (weight_lt_mapping (List.of_mem_zip hp).1) (each p hp).2)
              (Entries.replaced_iff.mpr rfl)
        | tagged tag content =>
            rw [toValue] at h
            exact .tagged (ih content (by rw [weight]; omega) h)
        | float x =>
            cases x with
            | finite x => cases h; exact .float x
            | infinite | notANumber => cases h
        | null => cases h; exact .null
        | bool b => cases h; exact .bool b
        | integer n => cases h; exact .integer n
        | text s => cases h; exact .text s
  · intro h
    induction h with
    | null | bool | integer | float | text => rfl
    | sequence length _ ih =>
        rw [toValue, itemValues_eq_mapM, mapM_ok_iff.mpr ⟨length, ih⟩]
        rfl
    | mapping length keys _ final ih =>
        have each := entryValues_ok_iff.mpr
          ⟨_, length, fun p hp => ⟨keys p hp, ih p hp⟩, Entries.replaced_iff.mp final⟩
        rw [toValue, each]
        rfl
    | tagged _ ih => rw [toValue, ih]

/-! ## Entries that are kept -/

/-- Where no two keys of a mapping have one text, no entry is replaced. -/
theorem Says.kept (h : t.Says Entries.Replaced v) (apart : ¬t.Clashes) : t.Says Eq v := by
  induction h with
  | null => exact .null
  | bool b => exact .bool b
  | integer n => exact .integer n
  | float x => exact .float x
  | text s => exact .text s
  | sequence length _ ih =>
      exact .sequence length fun p hp =>
        ih p hp fun below => apart (.item (List.of_mem_zip hp).1 below)
  | @mapping entries written left length keys _ final ih =>
      have distinct := by_contra fun twice => apart (.here twice)
      rw [map_keyText length keys] at distinct
      have same := Entries.putAll_distinct (List.Nodup.of_map _ distinct)
      exact .mapping length keys
        (fun p hp => ih p hp fun below => apart (.value (List.of_mem_zip hp).1 below))
        (same.symm.trans (Entries.replaced_iff.mp final).symm)
  | tagged _ ih => exact .tagged (ih fun below => apart (.content below))

/-- A value with every entry of the tree has a text for each key, and distinct ones. -/
theorem Clashes.not_kept (clash : t.Clashes) (h : t.Says Entries.Replaced v) : ¬t.Says Eq v := by
  intro kept
  induction clash generalizing v with
  | here twice =>
      cases h with
      | mapping length keys each final =>
          cases kept with
          | mapping length' keys' each' same =>
              subst same
              -- the texts of the keys are the keys of the value, and no key stands there twice
              refine twice ?_
              rw [map_keyText length' keys']
              refine List.Nodup.map (fun _ _ => Except.ok.inj) ?_
              rw [Entries.replaced_iff.mp final]
              exact Entries.nodup_putAll _
  | value member below ih =>
      cases h with
      | mapping length keys each final =>
          cases kept with
          | mapping length' keys' each' same =>
              subst same
              -- with the same keys written and left, both readings write the same entries
              have texts := (map_keyText length keys).symm.trans (map_keyText length' keys')
              have keys := (List.map_inj_right fun _ _ => Except.ok.inj).mp texts
              obtain rfl := final.eq_of_keys keys
              obtain ⟨w, hw⟩ := exists_mem_zip_left length member
              exact ih (each _ hw) (each' _ hw)
  | item member below ih =>
      cases h with
      | sequence length each =>
          cases kept with
          | sequence length' each' =>
              obtain ⟨w, hw⟩ := exists_mem_zip_left length member
              exact ih (each _ hw) (each' _ hw)
  | content below ih =>
      cases h with
      | tagged h =>
          cases kept with
          | tagged kept => exact ih h kept

/-! ## Trees that are no values -/

theorem entryValues_error {known : Entries} {entries : List (Tree × Tree)}
    (h : entryValues known entries = .error m) :
    ∃ e ∈ entries, keyText e.1 = .error m ∨ toValue e.2 = .error m := by
  induction entries generalizing known with
  | nil => cases h
  | cons e rest ih =>
      rw [entryValues, except_bind_error] at h
      rcases h with h | ⟨key, -, h⟩
      · exact ⟨e, List.mem_cons_self, .inl h⟩
      · rcases except_bind_error.mp h with h | ⟨v, -, h⟩
        · exact ⟨e, List.mem_cons_self, .inr h⟩
        · obtain ⟨u, hu, h⟩ := ih h
          exact ⟨u, List.mem_cons_of_mem _ hu, h⟩

theorem hasMisfit_of_error (h : t.toValue = .error m) : t.HasMisfit m := by
  induction t using weightInduction with
  | step t ih =>
      cases t with
      | sequence items =>
          rw [toValue, except_bind_error] at h
          rcases h with h | ⟨vs, -, h⟩
          · rw [itemValues_eq_mapM] at h
            obtain ⟨u, hu, h⟩ := exists_of_mapM_error h
            exact .item hu (ih u (weight_lt_sequence hu) h)
          · cases h
      | mapping entries =>
          rw [toValue, except_bind_error] at h
          rcases h with h | ⟨left, -, h⟩
          · obtain ⟨e, he, h | h⟩ := entryValues_error h
            · exact .key he h
            · exact .value he (ih e.2 (weight_lt_mapping he) h)
          · cases h
      | tagged tag content =>
          rw [toValue] at h
          exact .content (ih content (by rw [weight]; omega) h)
      | float x =>
          cases x with
          | finite x => cases h
          | infinite | notANumber =>
              cases h
              refine .number (fun y same => ?_) rfl
              cases same
      | null | bool | integer | text => cases h

/-- What a value says has no misfit. -/
theorem Says.fits (h : t.Says P v) (misfit : t.HasMisfit m) : False := by
  induction misfit generalizing v with
  | number infinite => cases h with | float x => exact infinite x rfl
  | key member bad =>
      cases h with
      | mapping length keys each final =>
          obtain ⟨w, hw⟩ := exists_mem_zip_left length member
          cases bad.symm.trans (keys _ hw)
  | value member below ih =>
      cases h with
      | mapping length keys each final =>
          obtain ⟨w, hw⟩ := exists_mem_zip_left length member
          exact ih (each _ hw)
  | item member below ih =>
      cases h with
      | sequence length each =>
          obtain ⟨w, hw⟩ := exists_mem_zip_left length member
          exact ih (each _ hw)
  | content below ih => cases h with | tagged h => exact ih h

/-- A tree becomes a value unless it has a misfit. Every entry is then kept exactly if no
two keys of one mapping have one text; else the later of the two replaces the earlier. -/
theorem toValue_entries (t : Tree) :
    ((∃ v, t.toValue = .ok v) ↔ ∀ m, ¬t.HasMisfit m) ∧
    ∀ v, t.toValue = .ok v → t.Says Entries.Replaced v ∧ (t.Says Eq v ↔ ¬t.Clashes) := by
  refine ⟨⟨?_, ?_⟩, ?_⟩
  · rintro ⟨v, hv⟩ m misfit
    exact (toValue_ok_iff.mp hv).fits misfit
  · intro fits
    cases hv : t.toValue with
    | ok v => exact ⟨v, rfl⟩
    | error m => exact absurd (hasMisfit_of_error hv) (fits m)
  · intro v hv
    have replaced := toValue_ok_iff.mp hv
    exact ⟨replaced, fun kept clash => clash.not_kept replaced kept, replaced.kept⟩

/-- A mapping with a tagged, a boolean and a null key, and one below it. -/
def kindsOfKeys : Tree :=
  .mapping [(.tagged "id" (.text "0"), .mapping [(.bool true, .text "on"), (.null, .text "off")]),
    (.integer ⟨12, by decide, by decide⟩, .sequence [.tagged "id" .null])]

theorem toValue_entries_kinds : ∃ v, kindsOfKeys.toValue = .ok v ∧ kindsOfKeys.Says Eq v := by
  have run : kindsOfKeys.toValue = .ok (.object
      [("0", .object [("true", .string "on"), ("null", .string "off")]),
        ("12", .array [.null])]) := by cbv
  have apart : ¬kindsOfKeys.Clashes := by
    rintro (twice | ⟨member, below⟩)
    · exact twice (by decide)
    · rcases List.mem_pair.mp member with rfl | rfl
      · rcases below with twice | ⟨member, below⟩
        · exact twice (by decide)
        · rcases List.mem_pair.mp member with rfl | rfl <;> cases below
      · cases below with
        | item member below =>
          cases List.mem_singleton.mp member
          cases below with | content below => cases below
  exact ⟨_, run, (toValue_entries kindsOfKeys).2 _ run |>.2.mpr apart⟩

/-- A document with the keys `1` and `"1"` is read, and the first value is lost. -/
theorem entry_lost :
    let t : Tree :=
      .mapping [(.integer ⟨1, by decide, by decide⟩, .text "a"), (.text "1", .text "b")]
    let v : Value := .object [("1", .string "b")]
    content? "1: a\n\"1\": b\n" = some t ∧ t.toValue = .ok v ∧ ¬t.Says Eq v := by
  refine ⟨by cbv, by cbv, fun kept => ?_⟩
  cases kept with
  | mapping length _ _ same =>
      subst same
      cases length

end Yaml.Tree

end ParamTree
