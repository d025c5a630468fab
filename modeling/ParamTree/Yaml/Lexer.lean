import ParamTree.Yaml.Scalar

/-!
# The tokens of a stream

`Lexer.tokens?` cuts a stream into tokens. Blocks have no brackets: their starts
and ends follow from the columns (`roll`, `unroll`). That a scalar is a key shows
only at the colon after it; the lexer keeps the place of a possible key and puts
the key token in front of it when the colon comes. Such a key stands on one line
and is not longer than 1024 bytes.
-/

namespace ParamTree.Yaml

/-- The place of a token that may turn out to be a key. -/
structure PendingKey where
  /-- Must a colon follow, because nothing else can stand in this column? -/
  required : Bool
  /-- The number of tokens before it. -/
  number : Nat
  index : Nat
  line : Nat
  column : Nat

/-- A stream that has been read in part. -/
structure Lexer where
  cursor : Cursor
  /-- The tokens so far, last first. -/
  tokens : List Token := []
  /-- Their number. -/
  count : Nat := 0
  /-- The possible key of the innermost collection. -/
  pending : Option PendingKey := none
  /-- The possible keys of the flow collections around it, innermost first. -/
  outer : List (Option PendingKey) := []
  /-- The column of the innermost block, below zero outside all blocks. -/
  indent : Int := -1
  /-- The columns of the blocks around it. -/
  indents : List Int := []
  /-- May a key start here? -/
  keyAllowed : Bool := true

namespace Lexer

/-- The longest key that needs no mark, in bytes. -/
def maxKeyLength : Nat := 1024

/-- Is the place inside a flow collection? -/
def inFlow (l : Lexer) : Bool := !l.outer.isEmpty

/-- The lexer with one more token. -/
def push (l : Lexer) (t : Token) : Lexer := { l with tokens := t :: l.tokens, count := l.count + 1 }

/-- The lexer with a token put in after the first `number` ones. -/
def insert (l : Lexer) (number : Nat) (t : Token) : Lexer :=
  let after := l.count - number
  { l with tokens := l.tokens.take after ++ t :: l.tokens.drop after, count := l.count + 1 }

/-! ## Possible keys -/

/-- Is the key on an earlier line, or too far back? -/
def isStale (c : Cursor) (k : PendingKey) : Bool :=
  k.line < c.line || k.index + maxKeyLength < c.index

/-- The possible key if it may still be one; a required key may not pass. -/
def refresh? (c : Cursor) : Option PendingKey → Option (Option PendingKey)
  | none => some none
  | some k => if !isStale c k then some (some k) else if k.required then none else some none

/-- The lexer without the keys that are stale. -/
def dropStale? (l : Lexer) : Option Lexer := do
  let pending ← refresh? l.cursor l.pending
  let outer ← l.outer.mapM (refresh? l.cursor)
  return { l with pending, outer }

/-- The lexer without the innermost possible key, which must not be required. -/
def dropKey? (l : Lexer) : Option Lexer :=
  match l.pending with
  | some k => if k.required then none else some { l with pending := none }
  | none => some l

/-- The lexer with a possible key at the cursor, where keys are allowed. -/
def saveKey? (l : Lexer) : Option Lexer :=
  if !l.keyAllowed then some l
  else do
    let l ← l.dropKey?
    let c := l.cursor
    let required := !l.inFlow && l.indent == (c.column : Int)
    let key : PendingKey :=
      { required, number := l.count, index := c.index, line := c.line, column := c.column }
    return { l with pending := some key }

/-! ## Blocks -/

/-- Opens a block at a column further right; its start token goes after the first
`number` tokens, or to the end. -/
def roll (l : Lexer) (column : Nat) (number : Option Nat) (start : Token) : Lexer :=
  if l.inFlow || (column : Int) ≤ l.indent then l
  else
    let l := { l with indents := l.indent :: l.indents, indent := column }
    match number with
    | some n => l.insert n start
    | none => l.push start

/-- Closes the blocks to the right of a column; `indents` lists the columns of the
blocks around the innermost. -/
def unrollFrom (column : Int) (l : Lexer) : List Int → Lexer
  | [] => { l with indents := [] }
  | outer :: rest =>
    if column < l.indent then
      unrollFrom column ({ l with indent := outer }.push .blockEnd) rest
    else { l with indents := outer :: rest }

/-- Closes the blocks to the right of a column. Flow collections ignore columns. -/
def unroll (l : Lexer) (column : Int) : Lexer :=
  if l.inFlow then l else unrollFrom column l l.indents

/-! ## Gaps -/

/-- The cursor at the next token and whether a key may start there: after blanks,
comments and breaks. Tabs count as blanks only where no key may start. A byte order
mark may stand at the start of a line, where it takes up a column. -/
def gap (flow : Bool) : Nat → Bool → Cursor → Bool × Cursor
  | 0, keyAllowed, c => (keyAllowed, c)
  | fuel + 1, keyAllowed, c =>
    match c.rest with
    | ' ' :: _ => gap flow fuel keyAllowed (c.skip 1)
    | '\t' :: _ =>
      if flow || !keyAllowed then gap flow fuel keyAllowed (c.skip 1) else (keyAllowed, c)
    | '#' :: _ => gap flow fuel keyAllowed (c.span fun ch => !isBreak ch).2
    | ch :: _ =>
      if ch.toNat = 0xfeff && c.column = 0 then gap flow fuel keyAllowed (c.skip 1)
      else
        match c.lineBreak? with
        | some (_, c) => gap flow fuel (keyAllowed || !flow) c
        | none => (keyAllowed, c)
    | [] => (keyAllowed, c)

/-! ## Tokens -/

/-- The lexer at another cursor. -/
def move (l : Lexer) (c : Cursor) : Lexer := { l with cursor := c }

/-- The lexer after `n` characters that make up a token. -/
def take (l : Lexer) (n : Nat) (t : Token) : Lexer := (l.move (l.cursor.skip n)).push t

/-- The lexer outside all blocks and without a possible key, where none may start. -/
def leaveBlocks? (l : Lexer) : Option Lexer := do
  let l ← (l.unroll (-1)).dropKey?
  return { l with keyAllowed := false }

/-- A bracket that opens a flow collection. -/
def openFlow? (l : Lexer) (t : Token) : Option Lexer := do
  let l ← l.saveKey?
  let inner := { l with outer := l.pending :: l.outer, pending := none, keyAllowed := true }
  return inner.take 1 t

/-- A bracket that closes a flow collection. -/
def closeFlow? (l : Lexer) (t : Token) : Option Lexer := do
  let l ← l.dropKey?
  let l := match l.outer with
    | pending :: outer => { l with pending, outer }
    | [] => l
  return { l with keyAllowed := false }.take 1 t

/-- A comma between the entries of a flow collection. -/
def flowEntry? (l : Lexer) : Option Lexer := do
  let l ← l.dropKey?
  return { l with keyAllowed := true }.take 1 .flowEntry

/-- A dash before an item of a block sequence. -/
def blockEntry? (l : Lexer) : Option Lexer :=
  if !l.inFlow && !l.keyAllowed then none
  else do
    let l ← (l.roll l.cursor.column none .blockSequenceStart).dropKey?
    return ({ l with keyAllowed := true } : Lexer).take 1 .blockEntry

/-- A question mark before a key. -/
def markedKey? (l : Lexer) : Option Lexer :=
  if !l.inFlow && !l.keyAllowed then none
  else do
    let l ← (l.roll l.cursor.column none .blockMappingStart).dropKey?
    return { l with keyAllowed := !l.inFlow }.take 1 .key

/-- A colon before a value. It makes a key of the possible key before it. -/
def value? (l : Lexer) : Option Lexer :=
  match l.pending with
  | some k =>
    let l := (l.insert k.number .key).roll k.column (some k.number) .blockMappingStart
    some ({ l with pending := none, keyAllowed := false }.take 1 .value)
  | none =>
    if !l.inFlow && !l.keyAllowed then none
    else
      let l := l.roll l.cursor.column none .blockMappingStart
      some ({ l with keyAllowed := !l.inFlow }.take 1 .value)

/-- A token that may be a key, given what reads it. -/
def keyable? (l : Lexer) (scan : Cursor → Option (Token × Cursor)) : Option Lexer := do
  let l ← l.saveKey?
  let (t, c) ← scan l.cursor
  return ({ l with keyAllowed := false }.move c).push t

/-- A plain scalar. After a break a key may start again. -/
def plain? (l : Lexer) (fuel : Nat) : Option Lexer := do
  let l ← l.saveKey?
  let (f, c) ← scanPlain l.inFlow (l.indent + 1) fuel {} false l.cursor
  let t := Token.scalar (String.ofList f.chars.reverse) true
  return ({ l with keyAllowed := f.broken }.move c).push t

/-- A quoted scalar. -/
def quoted? (l : Lexer) (single : Bool) (fuel : Nat) : Option Lexer :=
  l.keyable? fun c => do
    let (cs, c) ← scanQuoted single fuel {} false (c.skip 1)
    return (.scalar (String.ofList cs) false, c)

/-- A block scalar. -/
def block? (l : Lexer) (folded : Bool) (fuel : Nat) : Option Lexer := do
  let l ← l.dropKey?
  let (cs, c) ← scanBlock folded l.indent fuel l.cursor
  return ({ l with keyAllowed := true }.move c).push (.scalar (String.ofList cs) false)

/-- Characters that start no plain scalar. -/
def indicators : List Char :=
  ['-', '?', ':', ',', '[', ']', '\x7b', '\x7d', '#', '&', '*', '!', '|', '>', '\'', '"', '%', '@',
    '\x60']

/-- May a plain scalar start with the character, given what follows? -/
def startsPlain (flow : Bool) (ch : Char) (rest : List Char) : Bool :=
  (!(isBlank ch || isBreak ch) && !indicators.contains ch) ||
    (ch = '-' && !rest.head?.any isBlank) ||
    (!flow && (ch = '?' || ch = ':') && !blankOrEnd rest)

/-- The lexer after one more token, which starts with the given characters. -/
def token? (l : Lexer) (fuel : Nat) (ch : Char) (rest : List Char) : Option Lexer :=
  let flow := l.inFlow
  let start := l.cursor.column = 0
  if start && ch = '%' then do
    let l ← l.leaveBlocks?
    let (t, c) ← scanDirective l.cursor
    return (l.move c).push t
  else if start && isDocumentMarker (ch :: rest) then do
    let l ← l.leaveBlocks?
    return l.take 3 (if ch = '-' then .documentStart else .documentEnd)
  else if ch = '[' then l.openFlow? .flowSequenceStart
  else if ch = '\x7b' then l.openFlow? .flowMappingStart
  else if ch = ']' then l.closeFlow? .flowSequenceEnd
  else if ch = '\x7d' then l.closeFlow? .flowMappingEnd
  else if ch = ',' then l.flowEntry?
  else if ch = '-' && blankOrEnd rest then l.blockEntry?
  else if ch = '?' && (flow || blankOrEnd rest) then l.markedKey?
  else if ch = ':' && (flow || blankOrEnd rest) then l.value?
  else if ch = '*' then l.keyable? fun c => (scanName c).map fun (n, c) => (.alias n, c)
  else if ch = '&' then l.keyable? fun c => (scanName c).map fun (n, c) => (.anchor n, c)
  else if ch = '!' then l.keyable? (scanTag flow)
  else if ch = '|' && !flow then l.block? false fuel
  else if ch = '>' && !flow then l.block? true fuel
  else if ch = '\'' then l.quoted? true fuel
  else if ch = '"' then l.quoted? false fuel
  else if startsPlain flow ch rest then l.plain? fuel
  else none

/-- The lexer at the next token, without the stale keys and the blocks that end
before it. -/
def approach? (l : Lexer) (fuel : Nat) : Option Lexer := do
  let (keyAllowed, c) := gap l.inFlow fuel l.keyAllowed l.cursor
  let l ← { l with keyAllowed, cursor := c }.dropStale?
  return l.unroll c.column

/-- All tokens from a lexer on. Every token takes a character, so the fuel stays
above the number of characters that are left. -/
def run? : Nat → Lexer → Option (List Token)
  | 0, _ => none
  | fuel + 1, l => do
    let l ← l.approach? (fuel + 1)
    match l.cursor.rest with
    | [] => return (← l.leaveBlocks?).tokens.reverse
    | ch :: rest => run? fuel (← l.token? (fuel + 1) ch rest)

/-- The tokens of a stream. -/
def tokens? (text : String) : Option (List Token) :=
  let cs := text.toList
  if cs.all isAllowed then run? (cs.length + 1) { cursor := { rest := cs } } else none

end Lexer

end ParamTree.Yaml
