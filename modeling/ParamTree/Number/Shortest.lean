import ParamTree.Number.Binary64

/-!
# The shortest decimal of a binary64 number

The decimals that read back as a number are those between the midpoints to its
two neighbours (the midpoints themselves read back where the code is even, since
ties go to the even code). `Binary64.shortest` takes the coarsest power of ten
that has a multiple there, and of its multiples the one nearest to the number,
the even one on a tie. So no decimal with fewer digits reads back.
-/

namespace ParamTree.Binary64

/-- Twice the distance from zero of the midpoint between `code` and the code
before it, in steps of 2⁻¹⁰⁷⁴. -/
def lowerMidpoint (code : Nat) : Nat := units (code - 1) + units code

/-- Twice the distance from zero of the midpoint between `code` and the next
code, in steps of 2⁻¹⁰⁷⁴. -/
def upperMidpoint (code : Nat) : Nat := units code + units (code + 1)

/-- Does a decimal at twice `x` steps, all scaled by `scale`, read back as `code`? -/
def readsBack (code scale x : Nat) : Bool :=
  let lo := lowerMidpoint code * scale
  let hi := upperMidpoint code * scale
  if code % 2 = 0 then lo ≤ x && x ≤ hi else lo < x && x < hi

/-- The multiple of `10 ^ p` nearest to the number among those that read back,
as its factor. -/
def multipleAt? (code : Nat) (p : Int) : Option Nat :=
  let scale := tenTo (-p).toNat
  let step := tenTo p.toNat * twoTo 1074
  let v := units code * scale
  let below := v / step
  let hitBelow := readsBack code scale (2 * below * step)
  let hitAbove := readsBack code scale (2 * (below + 1) * step)
  if hitBelow && hitAbove then
    let r := v % step
    if 2 * r < step then some below
    else if step < 2 * r then some (below + 1)
    else if below % 2 = 0 then some below
    else some (below + 1)
  else if hitBelow then some below
  else if hitAbove then some (below + 1)
  else none

/-- The coarsest grid with a hit, searched from the power `p` downwards. -/
def searchDown (code : Nat) : Nat → Int → Nat × Int
  | 0, p => (0, p)
  | fuel + 1, p =>
    match multipleAt? code p with
    | some n => (n, p)
    | none => searchDown code fuel (p - 1)

/-- The shortest decimal `n · 10 ^ p` that reads back as the magnitude of a
nonzero number. Seventeen digits always suffice, so a search of twenty-two grids
from one that is too coarse ends with a hit. -/
def shortest (x : Binary64) : Nat × Int :=
  let binaryExponent : Int := (upperMidpoint x.code).log2 - 1074
  searchDown x.code 24 (binaryExponent * 30103 / 100000 + 2)

end ParamTree.Binary64
