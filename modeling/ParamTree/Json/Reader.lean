import ParamTree.Value.Basic

/-!
# Reading JSON

`Json.read?` reads one value and nothing after it, under a limit on nesting. A
key given twice keeps its first place and takes its last value.

Numbers without fraction and exponent that a 64-bit word holds are integers. Any
other number is a float, read in two roundings: the digits that fit an unsigned
word are rounded to a float, and that is multiplied or divided by the power of
ten. A number beyond the floats is refused.
-/

namespace ParamTree.Json

/-- Blanks between tokens. -/
def isSpace (c : Char) : Bool := c = ' ' || c = '\n' || c = '\t' || c = '\r'

/-- The characters after the blanks. -/
def skipSpace (cs : List Char) : List Char := cs.dropWhile isSpace

/-! ## Strings -/

/-- The number that four hexadecimal digits stand for. -/
def hex4? (a b c d : Char) : Option Nat := natIn? 16 [a, b, c, d]

/-- The character of a one-letter escape. -/
def simpleEscape? : Char → Option Char
  | '"' => some '"'
  | '\\' => some '\\'
  | '/' => some '/'
  | 'b' => some '\x08'
  | 'f' => some '\x0c'
  | 'n' => some '\n'
  | 'r' => some '\r'
  | 't' => some '\t'
  | _ => none

/-- The rest of a string whose opening quote has been read, and what follows its
closing quote; `acc` holds the characters read so far, last first. Escapes of
surrogates must come in pairs. -/
def readString (acc : List Char) : List Char → Option (String × List Char)
  | '"' :: rest => some (String.ofList acc.reverse, rest)
  | '\\' :: 'u' :: a :: b :: c :: d :: rest =>
    match hex4? a b c d with
    | none => none
    | some n =>
      if 0xdc00 ≤ n && n ≤ 0xdfff then none
      else if 0xd800 ≤ n && n ≤ 0xdbff then
        match rest with
        | '\\' :: 'u' :: e :: f :: g :: h :: after =>
          match hex4? e f g h with
          | none => none
          | some m =>
            if 0xdc00 ≤ m && m ≤ 0xdfff then
              readString (Char.ofNat (0x10000 + (n - 0xd800) * 0x400 + (m - 0xdc00)) :: acc) after
            else none
        | _ => none
      else readString (Char.ofNat n :: acc) rest
  | '\\' :: c :: rest =>
    match simpleEscape? c with
    | none => none
    | some e => readString (e :: acc) rest
  | c :: rest => if c.toNat < 0x20 then none else readString (c :: acc) rest
  | [] => none

/-! ## Numbers -/

/-- The significand with one more digit, if an unsigned word holds it. -/
def absorb? (significand : Nat) (c : Char) : Option Nat := do
  let n := significand * 10 + (← digit? c)
  if n < twoTo 64 then some n else none

/-- The significand after the digits of the integer part, and how many digits did
not fit. -/
def absorbInteger (significand : Nat) : List Char → Nat × Nat
  | [] => (significand, 0)
  | c :: cs =>
    match absorb? significand c with
    | some n => absorbInteger n cs
    | none => (significand, cs.length + 1)

/-- The significand after the digits of the fraction, and how many of them fit. -/
def absorbFraction (significand : Nat) : List Char → Nat × Nat
  | [] => (significand, 0)
  | c :: cs =>
    match absorb? significand c with
    | some n => ((absorbFraction n cs).1, (absorbFraction n cs).2 + 1)
    | none => (significand, 0)

/-- The greatest power of ten below the float range. -/
def maxPower : Nat := 308

/-- The float nearest to a power of ten in range. -/
def power? (k : Nat) : Option Binary64 := Binary64.ofRatio? false (tenTo k) 1

/-- The float `x · 10 ^ exponent` by one multiplication or division. A smaller
power than the float range has is divided off in steps; three of them bring any
significand to zero. -/
def applyExponent? : Nat → Binary64 → Int → Option Binary64
  | steps, x, exponent =>
    if exponent.natAbs ≤ maxPower then do
      let p ← power? exponent.natAbs
      if 0 ≤ exponent then x.mul? p else x.div? p
    else if x.isZero then some x
    else if 0 ≤ exponent then none
    else
      match steps with
      | 0 => some .zero
      | steps + 1 => do applyExponent? steps (← x.div? (← power? maxPower)) (exponent + maxPower)

/-- The float of a significand and an exponent. -/
def floatOf? (negative : Bool) (significand : Nat) (exponent : Int) : Option Number := do
  let x ← applyExponent? 3 (← Binary64.ofNat? significand) exponent
  return .float { x with negative := negative }

/-- The number without fraction and exponent: an integer where a word holds it.
A minus sign before zero makes a float, as only floats have a negative zero. -/
def integerOf? (negative : Bool) (significand : Nat) : Option Number :=
  if negative then
    if significand = 0 then floatOf? true 0 0
    else
      match Integer64.ofInt? (-(significand : Int)) with
      | some n => some (.integer n)
      | none => floatOf? true significand 0
  else (Integer64.ofInt? significand).map .integer

/-- The exponent after `e`: an optional sign and at least one digit. -/
def readExponent (cs : List Char) : Option (Int × List Char) :=
  let signed := match cs with
    | '+' :: rest => (false, rest)
    | '-' :: rest => (true, rest)
    | rest => (false, rest)
  match natIn? 10 (signed.2.takeWhile isDigit) with
  | none => none
  | some n => some (if signed.1 then -(n : Int) else n, signed.2.dropWhile isDigit)

/-- A number after its sign. The integer part has no needless leading zero, the
fraction at least one digit. -/
def readUnsigned (negative : Bool) (cs : List Char) : Option (Number × List Char) := do
  let digits := cs.takeWhile isDigit
  let rest := cs.dropWhile isDigit
  if digits.isEmpty || (digits.head? = some '0' && 1 < digits.length) then none
  else
    let (significand, dropped) := absorbInteger 0 digits
    match rest with
    | '.' :: after =>
      let fraction := after.takeWhile isDigit
      let tail := after.dropWhile isDigit
      if fraction.isEmpty then none
      else
        let (significand, taken) := absorbFraction significand fraction
        let scale : Int := (dropped : Int) - taken
        match tail with
        | c :: more =>
          if c = 'e' || c = 'E' then do
            let (e, final) ← readExponent more
            return (← floatOf? negative significand (scale + e), final)
          else return (← floatOf? negative significand scale, tail)
        | [] => return (← floatOf? negative significand scale, tail)
    | c :: more =>
      if c = 'e' || c = 'E' then do
        let (e, final) ← readExponent more
        return (← floatOf? negative significand (dropped + e), final)
      else if dropped = 0 then return (← integerOf? negative significand, rest)
      else return (← floatOf? negative significand dropped, rest)
    | [] =>
      if dropped = 0 then return (← integerOf? negative significand, rest)
      else return (← floatOf? negative significand dropped, rest)

/-- A number with an optional minus sign. -/
def readNumber : List Char → Option (Number × List Char)
  | '-' :: cs => readUnsigned true cs
  | cs => readUnsigned false cs

/-! ## Values -/

mutual

/-- One value and what follows it. Every character pays for at most two steps, so
the fuel given by `readWithin?` never runs out; `depth` is the number of levels
that may still be opened. -/
def readValue : Nat → Nat → List Char → Option (Value × List Char)
  | 0, _, _ => none
  | fuel + 1, depth, cs =>
    match skipSpace cs with
    | 'n' :: 'u' :: 'l' :: 'l' :: rest => some (.null, rest)
    | 't' :: 'r' :: 'u' :: 'e' :: rest => some (.bool true, rest)
    | 'f' :: 'a' :: 'l' :: 's' :: 'e' :: rest => some (.bool false, rest)
    | '"' :: rest => (readString [] rest).map fun (s, after) => (.string s, after)
    | '[' :: rest =>
      if depth = 0 then none
      else
        match skipSpace rest with
        | ']' :: after => some (.array [], after)
        | other => (readItems fuel (depth - 1) [] other).map fun (vs, after) => (.array vs, after)
    | '\x7b' :: rest =>
      if depth = 0 then none
      else
        match skipSpace rest with
        | '\x7d' :: after => some (.object [], after)
        | other => (readEntries fuel (depth - 1) [] other).map fun (es, after) => (.object es, after)
    | other => (readNumber other).map fun (n, after) => (.number n, after)

/-- The items up to the closing bracket; `acc` holds those read, last first. -/
def readItems : Nat → Nat → List Value → List Char → Option (List Value × List Char)
  | 0, _, _, _ => none
  | fuel + 1, depth, acc, cs =>
    match readValue fuel depth cs with
    | none => none
    | some (v, rest) =>
      match skipSpace rest with
      | ',' :: after => readItems fuel depth (v :: acc) after
      | ']' :: after => some ((v :: acc).reverse, after)
      | _ => none

/-- The entries up to the closing brace, added to those in `acc`. -/
def readEntries : Nat → Nat → Entries → List Char → Option (Entries × List Char)
  | 0, _, _, _ => none
  | fuel + 1, depth, acc, cs =>
    match skipSpace cs with
    | '"' :: start =>
      match readString [] start with
      | none => none
      | some (key, rest) =>
        match skipSpace rest with
        | ':' :: after =>
          match readValue fuel depth after with
          | none => none
          | some (v, rest) =>
            match skipSpace rest with
            | ',' :: after => readEntries fuel depth (acc.put key v) after
            | '\x7d' :: after => some (acc.put key v, after)
            | _ => none
        | _ => none
    | _ => none

end

/-- The value that a text holds, if its nesting is at most `depth`. -/
def readWithin? (depth : Nat) (text : String) : Option Value :=
  let cs := text.toList
  match readValue (2 * cs.length + 2) depth cs with
  | some (v, rest) => if (skipSpace rest).isEmpty then some v else none
  | none => none

/-- The deepest nesting of a document. -/
def maxDepth : Nat := 127

/-- The value that a JSON document holds. -/
def read? (text : String) : Option Value := readWithin? maxDepth text

end ParamTree.Json
