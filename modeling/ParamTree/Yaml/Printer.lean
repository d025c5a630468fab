import ParamTree.Value.Basic
import ParamTree.Yaml.Plain
import ParamTree.Yaml.Chars

/-!
# YAML text

Writing a value as a YAML document in block style. A text is written plain where
it reads back as itself, as a literal block where it has line feeds, and in
quotes elsewhere; `styleOf` decides. Sequences in a mapping stand at the level of
their key; an entry whose key is long or has several lines takes the form with a
question mark.
-/

namespace ParamTree.Yaml

/-- How a text is written. -/
inductive Style where
  | plain
  | singleQuoted
  | doubleQuoted
  | literal
deriving DecidableEq, Repr

/-! ## Choosing a style -/

/-- What the characters of a text allow. -/
structure Traits where
  /-- An indicator stands where a plain text cannot have it. -/
  indicators : Bool := false
  /-- A character cannot be written as it is. -/
  special : Bool := false
  /-- The text has a line break. -/
  lines : Bool := false
  /-- A space follows a break. -/
  breakSpace : Bool := false
  /-- A break follows a space. -/
  spaceBreak : Bool := false
deriving DecidableEq, Repr

/-- Indicators that no plain text starts with. -/
def startIndicators : List Char :=
  ['#', ',', '[', ']', '\x7b', '\x7d', '&', '*', '!', '|', '>', '\'', '"', '%', '@', '\x60']

/-- The traits of the characters after `previous`. -/
def traitsAfter (previous : Char) (t : Traits) : List Char → Traits
  | [] => t
  | c :: rest =>
    let afterBlank := isBlank previous || isBreak previous
    let indicator := (c = ':' && blankOrEnd rest) || (c = '#' && afterBlank)
    traitsAfter c
      { indicators := t.indicators || indicator
        special := t.special || !isPrintable c
        lines := t.lines || isBreak c
        breakSpace := t.breakSpace || (c = ' ' && isBreak previous)
        spaceBreak := t.spaceBreak || (isBreak c && previous = ' ') } rest

/-- The traits of a text. -/
def traitsOf : List Char → Traits
  | [] => {}
  | c :: rest =>
    let marker := match c :: rest with
      | '-' :: '-' :: '-' :: _ => true
      | '.' :: '.' :: '.' :: _ => true
      | _ => false
    let indicator := startIndicators.contains c ||
      ((c = '?' || c = ':' || c = '-') && blankOrEnd rest)
    traitsAfter c
      { indicators := marker || indicator
        special := !isPrintable c
        lines := isBreak c } rest

/-- Does a list start or end with a space or a break? -/
def looseEnds (cs : List Char) : Bool :=
  let loose (c : Option Char) : Bool := c.any fun c => c = ' ' || isBreak c
  loose cs.head? || loose cs.getLast?

/-- May the text be written plain, as far as its characters go? -/
def plainAllowed (cs : List Char) (t : Traits) : Bool :=
  !(looseEnds cs || t.breakSpace || t.spaceBreak || t.special || t.lines || t.indicators)

/-- May the text be written in single quotes? -/
def singleAllowed (t : Traits) : Bool := !(t.breakSpace || t.spaceBreak || t.special)

/-- May the text be written as a block? -/
def blockAllowed (cs : List Char) (t : Traits) : Bool :=
  !(cs.getLast? == some ' ' || t.spaceBreak || t.special)

/-- The style of a text. -/
def styleOf (s : String) : Style :=
  let cs := s.toList
  let t := traitsOf cs
  if cs.contains '\n' then
    if blockAllowed cs t then .literal else .doubleQuoted
  else if Plain.isText s && plainAllowed cs t then .plain
  else if singleAllowed t then .singleQuoted
  else .doubleQuoted

/-! ## Writing texts -/

/-- A run of spaces. -/
def spaces (n : Nat) : List Char := List.replicate n ' '

/-- The characters of a single-quoted text: quotes are doubled, and a line starts
at the indentation. -/
def singleChars (indent : Nat) (afterBreak : Bool) : List Char → List Char
  | [] => if afterBreak then spaces indent else []
  | c :: rest =>
    if isBreak c then c :: singleChars indent true rest
    else
      let body := if c = '\'' then ['\'', '\''] else [c]
      (if afterBreak then spaces indent else []) ++ body ++ singleChars indent false rest

/-- The hexadecimal digit of a number below sixteen, in upper case. -/
def upperHex (n : Nat) : Char :=
  if n < 10 then Char.ofNat ('0'.toNat + n) else Char.ofNat ('A'.toNat + (n - 10))

/-- A number in hexadecimal with the given number of digits. -/
def hexDigits : Nat → Nat → List Char
  | 0, _ => []
  | width + 1, n => hexDigits width (n / 16) ++ [upperHex (n % 16)]

/-- The letter of an escape, for characters that have one. -/
def escapeLetter? (n : Nat) : Option Char :=
  [(0x00, '0'), (0x07, 'a'), (0x08, 'b'), (0x09, 't'), (0x0a, 'n'), (0x0b, 'v'), (0x0c, 'f'),
   (0x0d, 'r'), (0x1b, 'e'), (0x22, '"'), (0x5c, '\\'), (0x85, 'N'), (0xa0, '_'),
   (0x2028, 'L'), (0x2029, 'P')].lookup n

/-- What stands in double quotes for one character. -/
def doubleChar (c : Char) : List Char :=
  if !isPrintable c || isBreak c || c = '"' || c = '\\' then
    let n := c.toNat
    match escapeLetter? n with
    | some letter => ['\\', letter]
    | none =>
      if n ≤ 0xff then '\\' :: 'x' :: hexDigits 2 n
      else if n ≤ 0xffff then '\\' :: 'u' :: hexDigits 4 n
      else '\\' :: 'U' :: hexDigits 8 n
  else [c]

/-- What follows the bar of a literal block: the indentation where the text does
not show it, and what becomes of the breaks at the end. -/
def literalHints (cs : List Char) : List Char :=
  let indentation := match cs with
    | c :: _ => if c = ' ' || isBreak c then ['2'] else []
    | [] => []
  let chomping := match cs.reverse with
    | [] => ['-']
    | [c] => if isBreak c then ['+'] else ['-']
    | c :: d :: _ => if !isBreak c then ['-'] else if isBreak d then ['+'] else []
  indentation ++ chomping

/-- The lines of a literal block, each at the indentation. -/
def literalChars (indent : Nat) (afterBreak : Bool) : List Char → List Char
  | [] => []
  | c :: rest =>
    if isBreak c then c :: literalChars indent true rest
    else (if afterBreak then spaces indent else []) ++ c :: literalChars indent false rest

/-- A text in its style; lines after the first stand at the indentation. -/
def text (indent : Nat) (s : String) : String :=
  let cs := s.toList
  match styleOf s with
  | .plain => s
  | .singleQuoted => String.ofList ('\'' :: singleChars indent false cs ++ ['\''])
  | .doubleQuoted => String.ofList ('"' :: cs.flatMap doubleChar ++ ['"'])
  | .literal => String.ofList ('|' :: literalHints cs ++ '\n' :: literalChars indent true cs)

/-! ## Writing values -/

/-- The longest key, in bytes, that stands before its colon on one line. -/
def maxSimpleKey : Nat := 128

/-- May the key stand before its colon on one line? -/
def isSimpleKey (key : String) : Bool :=
  !key.toList.any isBreak && key.utf8ByteSize ≤ maxSimpleKey

/-- The start of a line after `before`, at the given indentation. A text that ends
its line needs no break. -/
def lineAfter (before : String) (indent : Nat) : String :=
  let pad := String.ofList (spaces indent)
  match before.toList.getLast? with
  | some c => if isBreak c then pad else "\n" ++ pad
  | none => pad

/-- Parts one under the other at the given indentation; the first starts where
the line stands. -/
def stack (indent : Nat) : List String → String
  | [] => ""
  | [part] => part
  | part :: rest => part ++ lineAfter part indent ++ stack indent rest

/-- The text of a scalar; lines after the first stand two columns further. -/
def leaf (indent : Nat) : Value → String
  | .string s => text (indent + 2) s
  | .bool b => if b then "true" else "false"
  | .number n => n.text .yaml
  | _ => "null"

mutual

/-- A value that starts in the column `indent`, where the lines of a collection
stand. -/
def node (indent : Nat) : Value → String
  | .array items => if items.isEmpty then "[]" else stack indent (nodeItems indent items)
  | .object entries =>
    if entries.isEmpty then "\x7b\x7d" else stack indent (nodeEntries indent entries)
  | other => leaf indent other

/-- A value after an indicator and a space: a collection stands two columns
further, a text as it would in the enclosing collection. -/
def nodeInside (indent : Nat) : Value → String
  | .array items => if items.isEmpty then "[]" else stack (indent + 2) (nodeItems (indent + 2) items)
  | .object entries =>
    if entries.isEmpty then "\x7b\x7d"
    else stack (indent + 2) (nodeEntries (indent + 2) entries)
  | other => leaf indent other

/-- A value after a key and its colon: a sequence under the key, a mapping two
columns further. -/
def nodeAfterKey (indent : Nat) : Value → String
  | .array items =>
    if items.isEmpty then " []"
    else "\n" ++ String.ofList (spaces indent) ++ stack indent (nodeItems indent items)
  | .object entries =>
    if entries.isEmpty then " \x7b\x7d"
    else
      "\n" ++ String.ofList (spaces (indent + 2)) ++
        stack (indent + 2) (nodeEntries (indent + 2) entries)
  | other => " " ++ leaf indent other

/-- The items of a sequence. -/
def nodeItems (indent : Nat) : List Value → List String
  | [] => []
  | v :: vs => ("- " ++ nodeInside indent v) :: nodeItems indent vs

/-- The entries of a mapping. -/
def nodeEntries (indent : Nat) : List (String × Value) → List String
  | [] => []
  | (key, v) :: rest =>
    let keyText := text (indent + 2) key
    (if isSimpleKey key then keyText ++ ":" ++ nodeAfterKey indent v
     else
      let head := "? " ++ keyText
      head ++ lineAfter head indent ++ ": " ++ nodeInside indent v) :: nodeEntries indent rest

end

/-- The document of a value. -/
def document (v : Value) : String :=
  let body := node 0 v
  body ++ lineAfter body 0

end ParamTree.Yaml
