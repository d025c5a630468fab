import ParamTree.Yaml.Chars
import ParamTree.Number.Decimal

/-!
# Tokens of YAML

The tokens of a stream, the cursor that moves over its characters, and the
tokens that are read without regard to the lines around them: directives,
anchors, aliases and tags. `none` stands for a stream that is no YAML.
-/

namespace ParamTree.Yaml

/-- The text of a tag. A tag may be written with escaped bytes; bytes that form no
character stand as `none`. -/
abbrev TagText := List (Option Char)

namespace TagText

/-- A text as that of a tag. -/
def ofString (s : String) : TagText := s.toList.map some

/-- The text as a string, if its bytes form characters throughout. -/
def toString? (t : TagText) : Option String := (t.mapM fun c => c).map String.ofList

/-- The text before the first NUL, where a tag ends. -/
def beforeNul (t : TagText) : TagText := t.takeWhile (· ≠ some '\x00')

end TagText

/-- A token of a stream. -/
inductive Token where
  | versionDirective (major minor : Nat)
  /-- A handle and what it stands for. -/
  | tagDirective (handle : String) (expansion : TagText)
  | documentStart
  | documentEnd
  | blockSequenceStart
  | blockMappingStart
  | blockEnd
  | flowSequenceStart
  | flowSequenceEnd
  | flowMappingStart
  | flowMappingEnd
  | blockEntry
  | flowEntry
  | key
  | value
  | alias (name : String)
  | anchor (name : String)
  | tag (handle : String) (suffix : TagText)
  /-- A scalar, and whether it stands without quotes and outside a block. -/
  | scalar (text : String) (plain : Bool)
deriving DecidableEq, Repr

/-- A place in a stream and the characters from there on. -/
structure Cursor where
  rest : List Char
  /-- Bytes before the place. -/
  index : Nat := 0
  line : Nat := 0
  column : Nat := 0

/-- The number of bytes that characters take in UTF-8. -/
def byteCount (cs : List Char) : Nat := cs.foldl (fun n c => n + c.utf8Size) 0

namespace Cursor

/-- The cursor after `n` characters of one line. -/
def skip (n : Nat) (c : Cursor) : Cursor :=
  { c with
    rest := c.rest.drop n, index := c.index + byteCount (c.rest.take n), column := c.column + n }

/-- The characters up to the first that fails `p`, and the cursor there. No break
may satisfy `p`. -/
def span (p : Char → Bool) (c : Cursor) : List Char × Cursor :=
  let word := c.rest.takeWhile p
  (word, c.skip word.length)

/-- The cursor after a line break of `n` characters. -/
def nextLine (n : Nat) (c : Cursor) : Cursor :=
  { rest := c.rest.drop n, index := c.index + byteCount (c.rest.take n),
    line := c.line + 1, column := 0 }

/-- The break at a cursor, as it counts in a text, and the cursor after it. The
two Unicode separators count as themselves, all others as a line feed. -/
def lineBreak? (c : Cursor) : Option (Char × Cursor) :=
  match c.rest with
  | '\r' :: '\n' :: _ => some ('\n', c.nextLine 2)
  | b :: _ =>
    if !isBreak b then none
    else if b.toNat == 0x2028 || b.toNat == 0x2029 then some (b, c.nextLine 1)
    else some ('\n', c.nextLine 1)
  | [] => none

/-- The cursor after the blanks. -/
def skipBlanks (c : Cursor) : Cursor := (c.span isBlank).2

/-- The cursor at the end of a line that holds only blanks and a comment. -/
def endOfLine? (c : Cursor) : Option Cursor :=
  let c := c.skipBlanks
  let c := match c.rest with
    | '#' :: _ => (c.span fun ch => !isBreak ch).2
    | _ => c
  if breakOrEnd c.rest then some c else none

end Cursor

/-- Does a line that starts with these characters begin or end a document? -/
def isDocumentMarker : List Char → Bool
  | '-' :: '-' :: '-' :: rest => blankOrEnd rest
  | '.' :: '.' :: '.' :: rest => blankOrEnd rest
  | _ => false

/-! ## Tags -/

/-- The handle at a cursor: `!`, a word and a second `!` where there is one. Only a
directive insists on the second. -/
def scanHandle (directive : Bool) (c : Cursor) : Option (String × Cursor) :=
  match c.rest with
  | '!' :: _ =>
    let (word, c) := (c.skip 1).span isWordChar
    match c.rest with
    | '!' :: _ => some (String.ofList ('!' :: word ++ ['!']), c.skip 1)
    | _ =>
      if directive && !word.isEmpty then none else some (String.ofList ('!' :: word), c)
  | _ => none

/-- The number of bytes of an encoded character by its first byte. -/
def encodedWidth (byte : Nat) : Nat :=
  if byte < 0x80 then 1
  else if 0xc0 ≤ byte && byte < 0xe0 then 2
  else if 0xe0 ≤ byte && byte < 0xf0 then 3
  else if 0xf0 ≤ byte && byte < 0xf8 then 4
  else 0

/-- `n` escaped bytes that continue an encoded character. -/
def continuation? : Nat → List Char → Option (List Nat × List Char)
  | 0, cs => some ([], cs)
  | n + 1, '%' :: a :: b :: cs => do
    let byte ← natIn? 16 [a, b]
    if byte / 0x40 = 2 then
      let (bytes, cs) ← continuation? n cs
      return (byte % 0x40 :: bytes, cs)
    else none
  | _ + 1, _ => none

/-- The character that a number encoded in `width` bytes stands for, none where
the number is no character or has a shorter encoding. -/
def decodedChar? (width n : Nat) : Option Char :=
  if n.isValidChar && (Char.ofNat n).utf8Size == width then some (Char.ofNat n) else none

/-- One character written as escaped bytes, and the number of characters read. The
bytes have the form of an encoded character even where they are none. -/
def escapedChar? : List Char → Option (Option Char × Nat)
  | '%' :: a :: b :: cs => do
    let first ← natIn? 16 [a, b]
    let width := encodedWidth first
    if width = 0 then none
    else if width = 1 then return (some (Char.ofNat first), 3)
    else
      let (bytes, _) ← continuation? (width - 1) cs
      let start := first % twoTo (7 - width)
      let n := bytes.foldl (fun n byte => n * 0x40 + byte) start
      return (decodedChar? width n, 3 * width)
  | _ => none

/-- May the character stand in a tag? The flow indicators only between angle
brackets. -/
def isTagChar (verbatim : Bool) (c : Char) : Bool :=
  isWordChar c || [';', '/', '?', ':', '@', '&', '=', '+', '$', '.', '%', '!', '~', '*', '\'', '(',
    ')'].contains c || (verbatim && [',', '[', ']'].contains c)

/-- The characters of a tag from a cursor on, after `acc`. -/
def scanTagChars (verbatim : Bool) : Nat → TagText → Cursor → Option (TagText × Cursor)
  | 0, acc, c => some (acc.reverse, c)
  | fuel + 1, acc, c =>
    match c.rest with
    | '%' :: _ => do
      let (ch, n) ← escapedChar? c.rest
      scanTagChars verbatim fuel (ch :: acc) (c.skip n)
    | ch :: _ =>
      if isTagChar verbatim ch then scanTagChars verbatim fuel (some ch :: acc) (c.skip 1)
      else some (acc.reverse, c)
    | [] => some (acc.reverse, c)

/-- The text of a tag after a head that was read as a handle. The whole is not
empty; the leading mark of the head does not belong to it. -/
def scanTagText (verbatim : Bool) (head : List Char) (c : Cursor) : Option (TagText × Cursor) := do
  let (chars, c) ← scanTagChars verbatim c.rest.length [] c
  if head.isEmpty && chars.isEmpty then none
  else return (TagText.beforeNul ((head.drop 1).map some ++ chars), c)

/-- Does the word have the form of a handle with two marks? -/
def isFullHandle (handle : String) : Bool :=
  let cs := handle.toList
  1 < cs.length && cs.getLast? == some '!'

/-- The tag at a cursor. A tag with no handle of two marks belongs to the handle
`!`; the mark alone is a tag of its own. -/
def scanTag (flow : Bool) (c : Cursor) : Option (Token × Cursor) := do
  let (token, c) ← match c.rest with
    | _ :: '<' :: _ => do
      let (suffix, c) ← scanTagText true [] (c.skip 2)
      match c.rest with
      | '>' :: _ => some (Token.tag "" suffix, c.skip 1)
      | _ => none
    | _ => do
      let (handle, c) ← scanHandle false c
      if isFullHandle handle then
        let (suffix, c) ← scanTagText false [] c
        some (Token.tag handle suffix, c)
      else
        let (suffix, c) ← scanTagText false handle.toList c
        if suffix.isEmpty then some (Token.tag "" (.ofString "!"), c)
        else some (Token.tag "!" suffix, c)
  let closed := blankOrEnd c.rest || (flow && c.rest.head? == some ',')
  if closed then some (token, c) else none

/-! ## Directives, anchors and aliases -/

/-- The number of a version at a cursor. -/
def scanVersionNumber (c : Cursor) : Option (Nat × Cursor) := do
  let (digits, c) := c.span isDigit
  if 9 < digits.length then none
  else return (← natIn? 10 digits, c)

/-- The directive at a cursor. -/
def scanDirective (c : Cursor) : Option (Token × Cursor) := do
  let (name, c) := (c.skip 1).span isWordChar
  if name.isEmpty || !blankOrEnd c.rest then none
  else
    let (token, c) ←
      if name = ['Y', 'A', 'M', 'L'] then do
        let (major, c) ← scanVersionNumber c.skipBlanks
        match c.rest with
        | '.' :: _ =>
          let (minor, c) ← scanVersionNumber (c.skip 1)
          some (Token.versionDirective major minor, c)
        | _ => none
      else if name = ['T', 'A', 'G'] then do
        let (handle, c) ← scanHandle true c.skipBlanks
        if !c.rest.head?.any isBlank then none
        else
          let (expansion, c) ← scanTagText true [] c.skipBlanks
          if blankOrEnd c.rest then some (Token.tagDirective handle expansion, c) else none
      else none
    let c ← c.endOfLine?
    match c.lineBreak? with
    | some (_, c) => some (token, c)
    | none => some (token, c)

/-- May the character follow the name of an anchor or an alias? -/
def endsName : List Char → Bool
  | c :: rest => blankOrEnd (c :: rest) || ['?', ':', ',', ']', '\x7d', '%', '@', '\x60'].contains c
  | [] => true

/-- The name after the mark of an anchor or an alias. -/
def scanName (c : Cursor) : Option (String × Cursor) :=
  let (name, c) := (c.skip 1).span isWordChar
  if name.isEmpty || !endsName c.rest then none else some (String.ofList name, c)

end ParamTree.Yaml
