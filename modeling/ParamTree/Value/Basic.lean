import ParamTree.Number.Basic

/-!
# Values

The trees that schemas, configs and resolved parameters are made of. A mapping
keeps its entries in order; a reader never gives one key twice, and
`Value.WellFormed` says so at every depth.

Two equalities are used. `=` is identity of trees. `Value.sameAs` is equality of
what they say: the order of keys is ignored and the two float zeros are equal,
while `1` and `1.0` differ.
-/

namespace ParamTree

/-- A document value. -/
inductive Value where
  | null
  | bool (b : Bool)
  | number (n : Number)
  | string (s : String)
  | array (items : List Value)
  | object (entries : List (String × Value))
deriving Inhabited, Repr

/-- The entries of a mapping, in order. -/
abbrev Entries := List (String × Value)

/-- The entries with `key` set to `value`: in place where the key is present, at
the end where it is new. -/
def Entries.put (key : String) (value : Value) : Entries → Entries
  | [] => [(key, value)]
  | (k, v) :: rest => if k = key then (k, value) :: rest else (k, v) :: Entries.put key value rest

/-- Setting a key gives it the value and leaves the other keys alone. -/
theorem Entries.lookup_put (key k : String) (value : Value) (entries : Entries) :
    (entries.put key value).lookup k = if k = key then some value else entries.lookup k := by
  induction entries with
  | nil =>
    by_cases h : k = key
    · simp [Entries.put, h]
    · have hk : (k == key) = false := by simp [h]
      simp [Entries.put, List.lookup_cons, h, hk]
  | cons entry rest ih =>
    obtain ⟨l, w⟩ := entry
    by_cases hl : l = key
    · subst hl
      by_cases h : k = l
      · simp [Entries.put, h]
      · have hk : (k == l) = false := by simp [h]
        simp [Entries.put, List.lookup_cons, h, hk]
    · by_cases hk : k = l
      · subst hk
        simp [Entries.put, hl]
      · have hk' : (k == l) = false := by simp [hk]
        simp [Entries.put, hl, List.lookup_cons, hk', ih]

/-- Setting a key keeps the keys and their order, or adds the key at the end. -/
theorem Entries.keys_put (key : String) (value : Value) (entries : Entries) :
    (entries.put key value).map Prod.fst =
      if key ∈ entries.map Prod.fst then entries.map Prod.fst
      else entries.map Prod.fst ++ [key] := by
  induction entries with
  | nil => simp [Entries.put]
  | cons entry rest ih =>
    obtain ⟨l, w⟩ := entry
    by_cases hl : l = key
    · simp [Entries.put, hl]
    · have hl' : ¬key = l := fun h => hl h.symm
      rw [Entries.put, if_neg hl, List.map_cons, List.map_cons, ih]
      by_cases hr : key ∈ rest.map Prod.fst
      · rw [if_pos hr, if_pos (List.mem_cons_of_mem l hr)]
      · rw [if_neg hr, if_neg (by simpa [hl'] using hr), List.cons_append]

/-- A new key is added at the end. -/
theorem Entries.put_new {key : String} {entries : Entries} (value : Value)
    (new : key ∉ entries.map Prod.fst) :
    entries.put key value = entries ++ [(key, value)] := by
  induction entries with
  | nil => rfl
  | cons e rest ih =>
    rw [List.map_cons, List.mem_cons, not_or] at new
    rw [Entries.put, if_neg fun same => new.1 same.symm, ih new.2, List.cons_append]

/-- Setting a key keeps the keys distinct. -/
theorem Entries.nodup_put {key : String} {value : Value} {entries : Entries}
    (h : (entries.map Prod.fst).Nodup) : ((entries.put key value).map Prod.fst).Nodup := by
  rw [Entries.keys_put]
  split
  · exact h
  next hk => exact List.nodup_append.mpr ⟨h, by simp, fun a ha b hb hab =>
      hk (List.mem_singleton.mp hb ▸ hab ▸ ha)⟩

namespace Value

/-! ## Identity -/

mutual

/-- Equality of values is decidable. -/
def decEq : (a b : Value) → Decidable (a = b)
  | .null, .null => isTrue rfl
  | .bool a, .bool b =>
    if h : a = b then isTrue (h ▸ rfl) else isFalse (by simp [h])
  | .number a, .number b =>
    if h : a = b then isTrue (h ▸ rfl) else isFalse (by simp [h])
  | .string a, .string b =>
    if h : a = b then isTrue (h ▸ rfl) else isFalse (by simp [h])
  | .array a, .array b =>
    match decEqItems a b with
    | isTrue h => isTrue (h ▸ rfl)
    | isFalse h => isFalse (by simp [h])
  | .object a, .object b =>
    match decEqEntries a b with
    | isTrue h => isTrue (h ▸ rfl)
    | isFalse h => isFalse (by simp [h])
  | .null, .bool _ | .null, .number _ | .null, .string _ | .null, .array _ | .null, .object _
  | .bool _, .null | .bool _, .number _ | .bool _, .string _ | .bool _, .array _ | .bool _, .object _
  | .number _, .null | .number _, .bool _ | .number _, .string _ | .number _, .array _
  | .number _, .object _
  | .string _, .null | .string _, .bool _ | .string _, .number _ | .string _, .array _
  | .string _, .object _
  | .array _, .null | .array _, .bool _ | .array _, .number _ | .array _, .string _
  | .array _, .object _
  | .object _, .null | .object _, .bool _ | .object _, .number _ | .object _, .string _
  | .object _, .array _ => isFalse (by simp)

/-- Equality of sequences is decidable. -/
def decEqItems : (a b : List Value) → Decidable (a = b)
  | [], [] => isTrue rfl
  | [], _ :: _ => isFalse (by simp)
  | _ :: _, [] => isFalse (by simp)
  | a :: as, b :: bs =>
    match decEq a b, decEqItems as bs with
    | isTrue h, isTrue hs => isTrue (h ▸ hs ▸ rfl)
    | isFalse h, _ => isFalse (by simp [h])
    | _, isFalse hs => isFalse (by simp [hs])

/-- Equality of entry lists is decidable. -/
def decEqEntries : (a b : List (String × Value)) → Decidable (a = b)
  | [], [] => isTrue rfl
  | [], _ :: _ => isFalse (by simp)
  | _ :: _, [] => isFalse (by simp)
  | (k, a) :: as, (l, b) :: bs =>
    match decEq a b, decEqEntries as bs with
    | isTrue h, isTrue hs =>
      if hk : k = l then isTrue (h ▸ hs ▸ hk ▸ rfl) else isFalse (by simp [hk])
    | isFalse h, _ => isFalse (by simp [h])
    | _, isFalse hs => isFalse (by simp [hs])

end

instance : DecidableEq Value := decEq

/-! ## Equality of content -/

mutual

/-- Do two values say the same? The order of keys and the sign of a float zero
do not count. -/
def sameAs : Value → Value → Bool
  | .null, .null => true
  | .bool a, .bool b => a == b
  | .number a, .number b => a.sameAs b
  | .string a, .string b => a == b
  | .array as, .array bs => sameItems as bs
  | .object es, .object fs => es.length == fs.length && sameEntries es fs
  | _, _ => false

/-- Do two sequences hold the same values one by one? -/
def sameItems : List Value → List Value → Bool
  | [], [] => true
  | a :: as, b :: bs => a.sameAs b && sameItems as bs
  | _, _ => false

/-- Is every entry found, with the same value, among `others`? -/
def sameEntries : List (String × Value) → List (String × Value) → Bool
  | [], _ => true
  | (k, v) :: rest, others =>
    (match others.lookup k with
      | some w => v.sameAs w
      | none => false) && sameEntries rest others

end

/-! ## Well-formed values -/

mutual

/-- No mapping, at any depth, has one key twice. -/
def WellFormed : Value → Prop
  | .array items => WellFormedItems items
  | .object entries => (entries.map Prod.fst).Nodup ∧ WellFormedEntries entries
  | _ => True

/-- Every item is well formed. -/
def WellFormedItems : List Value → Prop
  | [] => True
  | v :: vs => v.WellFormed ∧ WellFormedItems vs

/-- Every entry's value is well formed. -/
def WellFormedEntries : List (String × Value) → Prop
  | [] => True
  | (_, v) :: rest => v.WellFormed ∧ WellFormedEntries rest

end

/-! ## Views -/

/-- Is this the null value? -/
def isNull : Value → Bool
  | .null => true
  | _ => false

/-- The text of a string value. -/
def asString? : Value → Option String
  | .string s => some s
  | _ => none

/-- The truth value of a boolean. -/
def asBool? : Value → Option Bool
  | .bool b => some b
  | _ => none

/-- The value of a non-negative integer. -/
def asNat? : Value → Option Nat
  | .number (.integer n) => n.toNat?
  | _ => none

/-- An integer value, for integers that a word holds. -/
def ofInt? (i : Int) : Option Value :=
  (Integer64.ofInt? i).map fun n => .number (.integer n)

end Value

end ParamTree
