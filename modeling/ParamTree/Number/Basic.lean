import ParamTree.Number.Shortest
import ParamTree.Number.Decimal

/-!
# Numbers

A number of a document is an integer that a 64-bit word holds, signed or
unsigned, or a finite binary64 number. The two kinds stay apart: `1` and `1.0`
are different numbers with the same float value.

`Number.text` writes a number; what the formats decide about floats is one
`FloatStyle` each.
-/

namespace ParamTree

/-- An integer in the range of a signed or an unsigned 64-bit word. -/
structure Integer64 where
  /-- The integer. -/
  val : Int
  /-- It is not below the signed range. -/
  lower : -0x8000000000000000 ≤ val
  /-- It is not above the unsigned range. -/
  upper : val < 0x10000000000000000
deriving DecidableEq, Repr

namespace Integer64

/-- The integer as a word, if one holds it. -/
def ofInt? (i : Int) : Option Integer64 :=
  if h : -0x8000000000000000 ≤ i ∧ i < 0x10000000000000000 then some ⟨i, h.1, h.2⟩ else none

/-- A word is found for the integers in range, and it holds them. -/
theorem ofInt?_eq_some_iff {i : Int} {n : Integer64} : ofInt? i = some n ↔ n.val = i := by
  unfold ofInt?
  constructor
  · intro h
    split at h
    · cases h
      rfl
    · cases h
  · intro h
    subst h
    rw [dif_pos ⟨n.lower, n.upper⟩]

/-- The integer as a word, if a signed one holds it. -/
def ofSigned? (i : Int) : Option Integer64 :=
  if h : -0x8000000000000000 ≤ i ∧ i < 0x8000000000000000 then some ⟨i, h.1, by omega⟩ else none

/-- The integer if it is not negative. -/
def toNat? (n : Integer64) : Option Nat :=
  if 0 ≤ n.val then some n.val.toNat else none

/-- The nearest binary64 number. -/
def toBinary64 (n : Integer64) : Binary64 :=
  (Binary64.ofRatio? (n.val < 0) n.val.natAbs 1).getD .zero

end Integer64

/-- A number of a document. -/
inductive Number where
  /-- Written without fraction and exponent, and held by a 64-bit word. -/
  | integer (n : Integer64)
  /-- Any other finite number. -/
  | float (x : Binary64)
deriving DecidableEq, Repr

/-- How a format writes floats. -/
structure FloatStyle where
  /-- Is the exponent of a large number written with a plus sign? -/
  plus : Bool
deriving DecidableEq, Repr

namespace Number

/-- The float value of a number, an integer rounded to the nearest. -/
def asFloat : Number → Binary64
  | .integer n => n.toBinary64
  | .float x => x

/-- Equality of numbers of one kind; an integer never equals a float. -/
def sameAs : Number → Number → Bool
  | .integer a, .integer b => a.val == b.val
  | .float x, .float y => x.sameAs y
  | _, _ => false

end Number

/-- JSON text writes `1e+16`. -/
def FloatStyle.json : FloatStyle := ⟨true⟩

/-- YAML text writes `1e16`. -/
def FloatStyle.yaml : FloatStyle := ⟨false⟩

/-- A run of zeros. -/
def zeros (n : Nat) : String := String.ofList (List.replicate n '0')

namespace Binary64

/-- The text of the exponent of a number in scientific notation. -/
def exponentText (style : FloatStyle) (e : Int) : String :=
  if e < 0 then "e-" ++ toString e.natAbs
  else if style.plus then "e+" ++ toString e.natAbs
  else "e" ++ toString e.natAbs

/-- The shortest text that reads back: positional with at least one decimal from
10⁻⁵ up to 10¹⁶, scientific elsewhere. -/
def text (style : FloatStyle) (x : Binary64) : String :=
  let sign := if x.negative then "-" else ""
  if x.isZero then sign ++ "0.0"
  else
    let (n, p) := x.shortest
    let digits := toString n
    let point : Int := digits.length + p
    if 0 ≤ p && point ≤ 16 then sign ++ digits ++ zeros p.toNat ++ ".0"
    else if 0 < point && point ≤ 16 then
      sign ++ String.ofList (digits.toList.take point.toNat) ++ "." ++
        String.ofList (digits.toList.drop point.toNat)
    else if -5 < point && point ≤ 0 then
      sign ++ "0." ++ zeros (-point).toNat ++ digits
    else if digits.length = 1 then
      sign ++ digits ++ exponentText style (point - 1)
    else
      sign ++ String.ofList (digits.toList.take 1) ++ "." ++
        String.ofList (digits.toList.drop 1) ++ exponentText style (point - 1)

end Binary64

/-- The text of a number: an integer in decimal, a float by its shortest decimal. -/
def Number.text (style : FloatStyle) : Number → String
  | .integer n => toString n.val
  | .float x => x.text style

end ParamTree
