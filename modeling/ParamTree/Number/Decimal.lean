import ParamTree.Number.Binary64

/-!
# Decimal literals

Reading integers and decimals from characters. `Decimal.read?` takes the usual
literal: an optional sign, digits with an optional point (at least one digit),
an optional exponent. A decimal is kept exact and rounded once, by
`Decimal.toBinary64?`.
-/

namespace ParamTree

/-- The value of a decimal digit. -/
def digit? (c : Char) : Option Nat :=
  if '0' ≤ c && c ≤ '9' then some (c.toNat - '0'.toNat) else none

/-- Is `c` one of the ten digits? -/
def isDigit (c : Char) : Bool := '0' ≤ c && c ≤ '9'

/-- The value of a digit in a base of at most sixteen, letters in either case. -/
def digitIn? (base : Nat) (c : Char) : Option Nat :=
  let value :=
    if '0' ≤ c && c ≤ '9' then c.toNat - '0'.toNat
    else if 'a' ≤ c && c ≤ 'f' then c.toNat - 'a'.toNat + 10
    else if 'A' ≤ c && c ≤ 'F' then c.toNat - 'A'.toNat + 10
    else base
  if value < base then some value else none

/-- The number that follows `acc` when the digits `cs` are appended. -/
def foldDigits? (base : Nat) : Nat → List Char → Option Nat
  | acc, [] => some acc
  | acc, c :: cs => do foldDigits? base (acc * base + (← digitIn? base c)) cs

/-- A nonempty run of digits in the given base. -/
def natIn? (base : Nat) (cs : List Char) : Option Nat :=
  if cs.isEmpty then none else foldDigits? base 0 cs

/-- An optional sign followed by a nonempty run of digits in the given base. -/
def intIn? (base : Nat) : List Char → Option Int
  | '-' :: cs => (natIn? base cs).map fun n => -(n : Int)
  | '+' :: cs => (natIn? base cs).map fun n => (n : Int)
  | cs => (natIn? base cs).map fun n => (n : Int)

/-- An exact decimal `± coefficient · 10 ^ exponent`. -/
structure Decimal where
  /-- Is the number written with a minus sign? -/
  negative : Bool
  /-- The digits without the point. -/
  coefficient : Nat
  /-- The power of ten that the digits count. -/
  exponent : Int
deriving DecidableEq, Repr

namespace Decimal

/-- The number of decimal digits. -/
def digitCount (n : Nat) : Nat := (Nat.toDigits 10 n).length

/-- The nearest binary64 number, `none` where that is an infinity. Exponents far
beyond the range are answered without forming the power of ten. -/
def toBinary64? (d : Decimal) : Option Binary64 :=
  let size : Int := digitCount d.coefficient + d.exponent
  if d.coefficient = 0 then some (.signedZero d.negative)
  else if 310 < size then none
  else if size < -330 then some (.signedZero d.negative)
  else if 0 ≤ d.exponent then
    Binary64.ofRatio? d.negative (d.coefficient * tenTo d.exponent.toNat) 1
  else
    Binary64.ofRatio? d.negative d.coefficient (tenTo (-d.exponent).toNat)

/-- The part of a literal after the digits: nothing, or `e` and an integer. -/
def readExponent? : List Char → Option Int
  | [] => some 0
  | c :: cs => if c = 'e' || c = 'E' then intIn? 10 cs else none

/-- A literal without its sign. -/
def readUnsigned? (negative : Bool) (cs : List Char) : Option Decimal :=
  let intPart := cs.takeWhile isDigit
  let rest := cs.dropWhile isDigit
  let fraction :=
    match rest with
    | '.' :: after => after.takeWhile isDigit
    | _ => []
  let tail :=
    match rest with
    | '.' :: after => after.dropWhile isDigit
    | other => other
  do
    let coefficient ← natIn? 10 (intPart ++ fraction)
    let exponent ← readExponent? tail
    return ⟨negative, coefficient, exponent - fraction.length⟩

/-- A decimal literal with an optional sign. -/
def read? : List Char → Option Decimal
  | '-' :: cs => readUnsigned? true cs
  | '+' :: cs => readUnsigned? false cs
  | cs => readUnsigned? false cs

end Decimal

end ParamTree
