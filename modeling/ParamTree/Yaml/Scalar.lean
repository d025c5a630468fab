import ParamTree.Yaml.Token

/-!
# Scalars of YAML

Reading the three forms of a scalar: plain, quoted, and block. All fold line
breaks by one rule (`Fold.close`): a single break is a space, and of several the
first is dropped.
-/

namespace ParamTree.Yaml

/-- A text that is being read, and the gap after its last character. -/
structure Fold where
  /-- The characters so far, last first. -/
  chars : List Char := []
  /-- Blanks of the gap before any break, last first. -/
  blanks : List Char := []
  /-- Has the gap a break, or an escaped one? -/
  broken : Bool := false
  /-- The first break of the gap. -/
  firstBreak : Option Char := none
  /-- Its further breaks, last first. -/
  moreBreaks : List Char := []

namespace Fold

/-- The text with the gap joined to it: the blanks where there is no break, one
space for a single line feed, and else the further breaks. -/
def close (f : Fold) : List Char :=
  if f.broken then
    match f.firstBreak with
    | some '\n' => if f.moreBreaks.isEmpty then ' ' :: f.chars else f.moreBreaks ++ f.chars
    | some b => f.moreBreaks ++ b :: f.chars
    | none => f.moreBreaks ++ f.chars
  else f.blanks ++ f.chars

/-- The text with one more character after the gap. -/
def push (f : Fold) (c : Char) : Fold := { chars := c :: f.close }

/-- The gap with one more blank; after a break, blanks do not count. -/
def blank (f : Fold) (c : Char) : Fold :=
  if f.broken then f else { f with blanks := c :: f.blanks }

/-- The gap with one more break. -/
def lineBreak (f : Fold) (b : Char) : Fold :=
  if f.broken then { f with moreBreaks := b :: f.moreBreaks }
  else { f with blanks := [], broken := true, firstBreak := some b }

/-- The text before an escaped break, which counts for nothing. -/
def escapedBreak (f : Fold) : Fold := { chars := f.close, broken := true }

end Fold

/-! ## Plain scalars -/

/-- Does the character end a plain scalar, given what follows? -/
def endsPlain (flow : Bool) (c : Char) (rest : List Char) : Bool :=
  (c = ':' && blankOrEnd rest) || (flow && [',', '[', ']', '\x7b', '\x7d'].contains c)

/-- Is this a colon that a flow collection cannot have inside a scalar? -/
def strayColon (flow : Bool) (c : Char) (rest : List Char) : Bool :=
  flow && c = ':' && rest.head?.any fun d => [',', '?', '[', ']', '\x7b', '\x7d'].contains d

/-- Reads a plain scalar from a cursor on; a continued line needs at least the
column `indent` outside flow collections. The gap after the scalar is read too. -/
def scanPlain (flow : Bool) (indent : Int) : Nat → Fold → Bool → Cursor → Option (Fold × Cursor)
  | 0, f, _, c => some (f, c)
  | fuel + 1, f, gap, c =>
    match c.rest with
    | [] => some (f, c)
    | ch :: rest =>
      if isBlank ch then
        if f.broken && (c.column : Int) < indent && ch = '\t' then none
        else scanPlain flow indent fuel (f.blank ch) true (c.skip 1)
      else
        match c.lineBreak? with
        | some (b, c) => scanPlain flow indent fuel (f.lineBreak b) true c
        | none =>
          let stops := gap && ((!flow && (c.column : Int) < indent) ||
            (c.column = 0 && isDocumentMarker (ch :: rest)) || ch = '#')
          if stops then some (f, c)
          else if strayColon flow ch rest then none
          else if endsPlain flow ch rest then some (f, c)
          else scanPlain flow indent fuel (f.push ch) false (c.skip 1)

/-! ## Quoted scalars -/

/-- The character of a one-letter escape. -/
def escapeOfLetter? (c : Char) : Option Char :=
  [('0', '\x00'), ('a', '\x07'), ('b', '\x08'), ('t', '\t'), ('\t', '\t'), ('n', '\n'),
   ('v', '\x0b'), ('f', '\x0c'), ('r', '\r'), ('e', '\x1b'), (' ', ' '), ('"', '"'), ('/', '/'),
   ('\\', '\\'), ('N', '\u0085'), ('_', '\u00a0'), ('L', '\u2028'), ('P', '\u2029')].lookup c

/-- The number of digits of a numeric escape. -/
def escapeWidth? (c : Char) : Option Nat := [('x', 2), ('u', 4), ('U', 8)].lookup c

/-- The character of an escape that follows a backslash, and the characters it
takes after the backslash. -/
def escape? : List Char → Option (Char × Nat)
  | [] => none
  | letter :: rest =>
    match escapeOfLetter? letter with
    | some c => some (c, 1)
    | none => do
      let width ← escapeWidth? letter
      let digits := rest.take width
      if digits.length < width then none
      else
        let n ← natIn? 16 digits
        if (0xd800 ≤ n && n ≤ 0xdfff) || 0x10ffff < n then none
        else return (Char.ofNat n, width + 1)

/-- Reads the rest of a quoted scalar after its opening quote. -/
def scanQuoted (single : Bool) : Nat → Fold → Bool → Cursor → Option (List Char × Cursor)
  | 0, _, _, _ => none
  | fuel + 1, f, gap, c =>
    match c.rest with
    | [] => none
    | ch :: rest =>
      if isBlank ch then scanQuoted single fuel (f.blank ch) true (c.skip 1)
      else
        match c.lineBreak? with
        | some (b, c) => scanQuoted single fuel (f.lineBreak b) true c
        | none =>
          if gap && c.column = 0 && isDocumentMarker (ch :: rest) then none
          else if single then
            if ch = '\'' then
              if rest.head? = some '\'' then scanQuoted single fuel (f.push '\'') false (c.skip 2)
              else some (f.close.reverse, c.skip 1)
            else scanQuoted single fuel (f.push ch) false (c.skip 1)
          else if ch = '"' then some (f.close.reverse, c.skip 1)
          else if ch = '\\' then
            match (c.skip 1).lineBreak? with
            | some (_, c) => scanQuoted single fuel f.escapedBreak true c
            | none => do
              let (e, n) ← escape? rest
              scanQuoted single fuel (f.push e) false (c.skip (n + 1))
          else scanQuoted single fuel (f.push ch) false (c.skip 1)

/-! ## Block scalars -/

/-- What becomes of the breaks at the end of a block scalar. -/
inductive Chomping where
  | strip
  | clip
  | keep
deriving DecidableEq, Repr

/-- The chomping indicator at a cursor. -/
def scanChomping (c : Cursor) : Option Chomping × Cursor :=
  match c.rest with
  | '+' :: _ => (some .keep, c.skip 1)
  | '-' :: _ => (some .strip, c.skip 1)
  | _ => (none, c)

/-- The indentation indicator at a cursor; zero is none. -/
def scanIndentation (c : Cursor) : Option (Nat × Cursor) :=
  match c.rest with
  | ch :: _ =>
    match digit? ch with
    | some 0 => none
    | some n => some (n, c.skip 1)
    | none => some (0, c)
  | [] => some (0, c)

/-- The two indicators after the mark of a block scalar, in either order. -/
def scanBlockHeader (c : Cursor) : Option (Chomping × Nat × Cursor) := do
  let (before, c) := scanChomping c
  let (indentation, c) ← scanIndentation c
  let (after, c) := if before.isNone && indentation ≠ 0 then scanChomping c else (before, c)
  return (after.getD .clip, indentation, c)

/-- The empty lines and the indentation from a cursor on: the breaks, last first,
the widest indentation, and the cursor at the first character of a line. An
indentation of zero is still to be found. -/
def scanEmptyLines (indent : Nat) : Nat → List Char → Nat → Cursor →
    Option (List Char × Nat × Cursor)
  | 0, breaks, widest, c => some (breaks, widest, c)
  | fuel + 1, breaks, widest, c =>
    let inside := indent = 0 || c.column < indent
    if inside && c.rest.head? = some ' ' then
      scanEmptyLines indent fuel breaks widest (c.skip 1)
    else if inside && c.rest.head? = some '\t' then none
    else
      match c.lineBreak? with
      | some (b, next) => scanEmptyLines indent fuel (b :: breaks) (max widest c.column) next
      | none => some (breaks, max widest c.column, c)

/-- A block scalar that is being read. -/
structure Block where
  /-- The characters so far, last first. -/
  chars : List Char := []
  /-- The break that ended the last line. -/
  leadingBreak : Option Char := none
  /-- The empty lines after it, last first. -/
  emptyLines : List Char := []
  /-- Did the last line start with a blank? -/
  startedBlank : Bool := false

/-- The break that ended the last line, as the next line finds it. Folding turns a
line feed between two lines without leading blanks into a space, and drops it
before empty lines. -/
def Block.join (b : Block) (folded startsBlank : Bool) : List Char :=
  let chars :=
    if folded && b.leadingBreak = some '\n' && !b.startedBlank && !startsBlank then
      if b.emptyLines.isEmpty then ' ' :: b.chars else b.chars
    else b.leadingBreak.toList ++ b.chars
  b.emptyLines ++ chars

/-- Reads the lines of a block scalar while they stand at the indentation. -/
def scanBlockLines (folded : Bool) (indent : Nat) : Nat → Block → Cursor → Option (Block × Cursor)
  | 0, b, c => some (b, c)
  | fuel + 1, b, c =>
    match c.rest with
    | [] => some (b, c)
    | ch :: _ =>
      if c.column ≠ indent then some (b, c)
      else do
        let startsBlank := isBlank ch
        let joined := b.join folded startsBlank
        let (line, c) := c.span fun d => !isBreak d
        let (leadingBreak, c) := match c.lineBreak? with
          | some (br, c) => (some br, c)
          | none => (none, c)
        let (emptyLines, _, c) ← scanEmptyLines indent (fuel + 1) [] 0 c
        scanBlockLines folded indent fuel
          { chars := line.reverse ++ joined, leadingBreak, emptyLines, startedBlank := startsBlank } c

/-- The text of a block scalar that has been read. -/
def Block.text (b : Block) (chomping : Chomping) : List Char :=
  let clipped := b.leadingBreak.toList ++ b.chars
  match chomping with
  | .strip => b.chars.reverse
  | .clip => clipped.reverse
  | .keep => (b.emptyLines ++ clipped).reverse

/-- Reads a block scalar at its mark; `parent` is the column of the enclosing
block, below zero where there is none. -/
def scanBlock (folded : Bool) (parent : Int) (fuel : Nat) (c : Cursor) :
    Option (List Char × Cursor) := do
  let (chomping, indentation, c) ← scanBlockHeader (c.skip 1)
  let c ← c.endOfLine?
  let c := match c.lineBreak? with
    | some (_, c) => c
    | none => c
  let asked := if indentation = 0 then 0 else parent.toNat + indentation
  let (emptyLines, widest, c) ← scanEmptyLines asked fuel [] 0 c
  let indent := if asked = 0 then max widest (max (parent + 1).toNat 1) else asked
  let (b, c) ← scanBlockLines folded indent fuel { emptyLines } c
  return (b.text chomping, c)

end ParamTree.Yaml
