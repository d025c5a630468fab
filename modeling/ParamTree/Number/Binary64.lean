import ParamTree.Number.Power

/-!
# Finite binary64 numbers

A finite 64-bit floating-point number is held as its sign and its *code*: the
63 bits below the sign, read as a natural number. Codes are ordered as the
magnitudes are, so the neighbour of a number has the next code, and rounding is
arithmetic on natural numbers. The magnitude of a code is `units code` steps of
2⁻¹⁰⁷⁴, the distance between the smallest numbers.

`nearestCode num den` rounds the exact quotient `num / den`, ties to the even
code. All arithmetic here goes through it, so each operation rounds once.
-/

namespace ParamTree

/-- A finite binary64 number: neither an infinity nor a NaN. -/
structure Binary64 where
  /-- Is the sign bit set? Zero has both signs. -/
  negative : Bool
  /-- The exponent and fraction bits. -/
  code : Nat
  /-- The exponent bits are not all ones. -/
  code_lt : code < 2047 * twoTo 52
deriving DecidableEq, Repr

namespace Binary64

/-- The zero with the given sign. -/
def signedZero (negative : Bool) : Binary64 := ⟨negative, 0, by decide⟩

/-- Positive zero. -/
def zero : Binary64 := signedZero false

/-- Positive one. -/
def one : Binary64 := ⟨false, 1023 * twoTo 52, by decide⟩

instance : Inhabited Binary64 := ⟨zero⟩

/-- The magnitude of a code, counted in steps of 2⁻¹⁰⁷⁴. The first two binades
share one step size; each later one doubles it. -/
def units (code : Nat) : Nat :=
  if code < twoTo 53 then code
  else (twoTo 52 + code % twoTo 52) * twoTo (code / twoTo 52 - 1)

/-- The quotient `a / b` rounded to the nearest natural number, a half to the
even neighbour. -/
def roundHalfEven (a b : Nat) : Nat :=
  let n := a / b
  let r := a % b
  if 2 * r < b then n
  else if b < 2 * r then n + 1
  else if n % 2 = 0 then n
  else n + 1

/-- The code nearest to `num / den`, possibly beyond the finite codes. The
significand gets 53 bits where the number is large enough for that. -/
def nearestCode (num den : Nat) : Nat :=
  let s := 1021 + num.log2 - den.log2
  let a := num * twoTo 1074
  let b := den * twoTo s
  if num = 0 then 0
  else if a / b < twoTo 53 then roundHalfEven a b + s * twoTo 52
  else roundHalfEven a (2 * b) + (s + 1) * twoTo 52

/-- The number nearest to `num / den` with the given sign, `none` where that is
an infinity. -/
def ofRatio? (negative : Bool) (num den : Nat) : Option Binary64 :=
  let code := nearestCode num den
  if h : code < 2047 * twoTo 52 then some ⟨negative, code, h⟩ else none

/-- The magnitude as a number of steps of 2⁻¹⁰⁷⁴. -/
def magnitude (x : Binary64) : Nat := units x.code

/-- The quotient of two numbers, rounded; the sign is that of the first. -/
def div? (x y : Binary64) : Option Binary64 :=
  ofRatio? x.negative x.magnitude y.magnitude

/-- The product of two numbers, rounded; the sign is that of the first. -/
def mul? (x y : Binary64) : Option Binary64 :=
  ofRatio? x.negative (x.magnitude * y.magnitude) (twoTo 2148)

/-- The number nearest to a natural number that a 64-bit word holds. -/
def ofNat? (n : Nat) : Option Binary64 := ofRatio? false n 1

/-- The same magnitude with the sign bit set. -/
def neg (x : Binary64) : Binary64 := { x with negative := true }

/-- Is the number zero, of either sign? -/
def isZero (x : Binary64) : Bool := x.code == 0

/-- Numeric equality: the two zeros are equal. -/
def sameAs (x y : Binary64) : Bool :=
  x.code == y.code && (x.negative == y.negative || x.code == 0)

/-- The value as an integer, `none` where it has a fraction. -/
def whole? (x : Binary64) : Option Int :=
  if x.magnitude % twoTo 1074 = 0 then
    let n : Int := x.magnitude / twoTo 1074
    some (if x.negative then -n else n)
  else none

end Binary64

end ParamTree
