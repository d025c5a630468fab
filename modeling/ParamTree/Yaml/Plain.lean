import ParamTree.Number.Basic

/-!
# Plain scalars

What a YAML scalar without quotes stands for: nothing, a truth value, a number,
or else its own text. `Plain.read` is the rule; `Plain.isText` says which texts
keep their meaning when they are written without quotes.
-/

namespace ParamTree.Yaml

/-- A YAML float: finite, or one of the three that documents cannot hold. -/
inductive YamlFloat where
  | finite (x : Binary64)
  | infinite (negative : Bool)
  | notANumber
deriving DecidableEq, Repr

/-- What a plain scalar stands for. -/
inductive Plain where
  | null
  | bool (b : Bool)
  | integer (n : Integer64)
  /-- An integer that no 64-bit word holds but a 128-bit word does. -/
  | wideInteger
  | float (x : YamlFloat)
  | text
deriving DecidableEq, Repr

namespace Plain

/-- The words for nothing. -/
def nullWords : List String := ["null", "Null", "NULL", "~"]

/-- The truth value that a word stands for. -/
def bool? (s : String) : Option Bool :=
  if ["true", "True", "TRUE"].contains s then some true
  else if ["false", "False", "FALSE"].contains s then some false
  else none

/-- The characters after an optional sign. -/
def afterSign : List Char → List Char
  | '+' :: cs => cs
  | '-' :: cs => cs
  | cs => cs

/-- Are these digits with a needless zero in front? Such a text is no number. -/
def paddedDigits (cs : List Char) : Bool :=
  match afterSign cs with
  | '0' :: d :: ds => (d :: ds).all isDigit
  | _ => false

/-- Digits with the marker of their base in front. -/
def basedNat? : List Char → Option Nat
  | '0' :: 'x' :: cs => natIn? 16 cs
  | '0' :: 'o' :: cs => natIn? 8 cs
  | '0' :: 'b' :: cs => natIn? 2 cs
  | _ => none

/-- The integer that a text spells, of any size: based digits after an optional
sign, or decimal digits that are not padded. -/
def int? (cs : List Char) : Option Int :=
  let based := match cs with
    | '-' :: rest => (basedNat? rest).map fun n => -(n : Int)
    | '+' :: rest => (basedNat? rest).map Int.ofNat
    | rest => (basedNat? rest).map Int.ofNat
  match based with
  | some i => some i
  | none => if paddedDigits cs then none else intIn? 10 cs

/-- The float that a text spells: an infinity, not-a-number, or a decimal in
range. A plus sign is followed by no other sign. -/
def float? (s : String) : Option YamlFloat :=
  let unsigned := match s.toList with
    | '+' :: rest => rest
    | cs => cs
  if [".inf", ".Inf", ".INF"].contains (String.ofList unsigned) then some (.infinite false)
  else if ["-.inf", "-.Inf", "-.INF"].contains s then some (.infinite true)
  else if [".nan", ".NaN", ".NAN"].contains s then some .notANumber
  else (Decimal.read? s.toList).bind fun d => d.toBinary64?.map .finite

/-- The integer of a scalar by the word that holds it, none where a 128-bit word
is too small. -/
def ofInt? (i : Int) : Option Plain :=
  match Integer64.ofInt? i with
  | some n => some (.integer n)
  | none => if -(twoTo 127 : Int) ≤ i && i < (twoTo 128 : Int) then some .wideInteger else none

/-- What a plain scalar stands for. -/
def read (s : String) : Plain :=
  let cs := s.toList
  if cs.isEmpty || nullWords.contains s then .null
  else
    match bool? s with
    | some b => .bool b
    | none =>
      match (int? cs).bind ofInt? with
      | some p => p
      | none =>
        if paddedDigits cs then .text
        else
          match float? s with
          | some x => .float x
          | none => .text

/-- Does a text stand for itself when it is written plain, and not for something
that other readers take for a number? -/
def isText (s : String) : Bool := read s == .text && !paddedDigits s.toList

end Plain

end ParamTree.Yaml
