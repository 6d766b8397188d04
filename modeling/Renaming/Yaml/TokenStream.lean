import Renaming.Yaml.Token

/-!
# `Yaml/TokenStream` — the tokens of a text

Whether a text is a key shows only at the colon behind it. So every place at which a key could
start is remembered, one per level of nested flow collections, and the colon puts the tokens that
announce a key, and if need be a new block mapping, in front of what was read since. A key has to
fit on one line and into 1024 characters.

The tokens of a text end with the end of the stream or, where reading could not go on, with the
fault. What stands in front of the fault is still read by whoever reads the tokens, so that of two
faults the one that comes first in the text is found. But a token is only handed on when nothing
can be put in front of it any more (`settled`), so a fault hides every place that was still waiting
for its colon.
-/

set_option autoImplicit false

namespace Renaming

namespace Yaml

/-- A place at which a key could have started. -/
structure PossibleKey where
  /-- The number of tokens in front of it. -/
  position : Nat
  /-- Whether something that is no key would be wrong there. -/
  required : Bool
  index : Nat
  line : Nat
  column : Nat

/-- Tokens in the order in which they were read, with their number at hand. -/
structure TokenLog where
  /-- The tokens, the newest in front. -/
  newest : List Token
  size : Nat
  length_newest : newest.length = size

namespace TokenLog

def empty : TokenLog := ⟨[], 0, rfl⟩

def toList (l : TokenLog) : List Token := l.newest.reverse

def push (l : TokenLog) (t : Token) : TokenLog :=
  ⟨t :: l.newest, l.size + 1, by rw [List.length_cons, l.length_newest]⟩

/-- Puts a token behind the first `position` ones. -/
def insertAt (l : TokenLog) (position : Nat) (t : Token) : TokenLog :=
  ⟨l.newest.insertIdx (l.size - position) t, l.size + 1, by
    have h : l.size - position ≤ l.newest.length := by rw [l.length_newest]; exact Nat.sub_le _ _
    rw [List.length_insertIdx_of_le_length h, l.length_newest]⟩

end TokenLog

/-- How far the tokens have been read. -/
structure Scanning where
  cursor : Cursor
  /-- The tokens so far. -/
  tokens : TokenLog
  /-- The number of flow collections around the cursor. -/
  flowLevel : Nat
  /-- The column of the block collection around the cursor, −1 outside any. -/
  indent : Int
  /-- The columns of the block collections around that one. -/
  outer : List Int
  /-- Whether a key may start here. -/
  keyAllowed : Bool
  /-- The last place in each flow level at which a key could have started. -/
  possible : List (Nat × PossibleKey)

namespace Scanning

def start (t : Text) : Scanning := ⟨.start t, .empty, 0, -1, [], true, []⟩

/-- Whether the cursor is in a flow collection. -/
def inFlow (s : Scanning) : Bool := s.flowLevel != 0

def emit (s : Scanning) (t : Token) : Scanning := { s with tokens := s.tokens.push t }

def emitOver (s : Scanning) (n : Nat) (t : Token) : Scanning :=
  { s with cursor := s.cursor.advance n, tokens := s.tokens.push t }

/-- Puts a token behind the first `position` ones. -/
def emitAt (s : Scanning) (position : Nat) (t : Token) : Scanning :=
  { s with tokens := s.tokens.insertAt position t }

def allowKey (s : Scanning) (allowed : Bool) : Scanning := { s with keyAllowed := allowed }

/-! ## Possible keys -/

/-- The place at which a key of this flow level could have started. -/
def possibleHere? (s : Scanning) : Option PossibleKey := s.possible.lookup s.flowLevel

/-- Forgets the possible key of this flow level. -/
def forgetPossible (s : Scanning) : Scanning :=
  { s with possible := s.possible.filter fun p => p.1 != s.flowLevel }

/-- Gives up the possible key of this flow level, which must not be a required one. -/
def dropPossible (s : Scanning) : Except Fault Scanning :=
  match s.possibleHere? with
  | some k => if k.required then .error malformed else .ok s.forgetPossible
  | none => .ok s

/-- Gives up the possible keys that the cursor has left behind too far. -/
def dropStale (s : Scanning) : Except Fault Scanning :=
  let isStale (p : Nat × PossibleKey) : Bool :=
    p.2.line != s.cursor.line || p.2.index + 1024 < s.cursor.index
  if s.possible.any fun p => isStale p && p.2.required then .error malformed
  else .ok { s with possible := s.possible.filter fun p => !isStale p }

def savePossible (s : Scanning) : Except Fault Scanning :=
  if s.keyAllowed then do
    let s ← s.dropPossible
    let required := !s.inFlow && s.indent == s.cursor.column
    let k : PossibleKey :=
      ⟨s.tokens.size, required, s.cursor.index, s.cursor.line, s.cursor.column⟩
    return { s with possible := (s.flowLevel, k) :: s.possible }
  else .ok s

/-! ## Indentation -/

/-- Ends the block collections that are indented deeper than a column. -/
def unwindBlocks (column : Int) : Int → List Int → TokenLog → Int × List Int × TokenLog
  | indent, [], tokens => (indent, [], tokens)
  | indent, o :: os, tokens =>
    if column < indent then unwindBlocks column o os (tokens.push .blockEnd)
    else (indent, o :: os, tokens)

/-- Ends the block collections that are indented deeper than a column. Flow collections pay no
attention to indentation. -/
def unwind (s : Scanning) (column : Int) : Scanning :=
  if s.inFlow then s
  else
    let (indent, outer, tokens) := unwindBlocks column s.indent s.outer s.tokens
    { s with indent := indent, outer := outer, tokens := tokens }

/-- Opens a block collection at a column when it is deeper than the one around it; then `opened`
adds its first token. -/
def openBlock (s : Scanning) (column : Nat) (opened : Scanning → Scanning) : Scanning :=
  if s.indent < column then
    opened { s with indent := column, outer := s.indent :: s.outer }
  else s

/-! ## The tokens one by one -/

/-- A directive or document marker, which ends all block collections. -/
def margin (s : Scanning) : Except Fault Scanning := do
  let s ← (s.unwind (-1)).dropPossible
  return s.allowKey false

def finish (s : Scanning) : Except Fault Scanning := do
  let s ← s.margin
  return { s with possible := [] }.emit .streamEnd

/-- The start of a flow collection, which may be a key itself. -/
def openFlow (s : Scanning) (t : Token) : Except Fault Scanning := do
  let s ← s.savePossible
  return ({ s with flowLevel := s.flowLevel + 1 }.allowKey true).emitOver 1 t

def closeFlow (s : Scanning) (t : Token) : Except Fault Scanning := do
  let s ← s.dropPossible
  return ({ s with flowLevel := s.flowLevel - 1 }.allowKey false).emitOver 1 t

/-- A comma between the items of a flow collection. -/
def flowEntry (s : Scanning) : Except Fault Scanning := do
  let s ← (s.allowKey true).dropPossible
  return s.emitOver 1 .flowEntry

/-- A hyphen in front of an item of a block sequence. -/
def blockEntry (s : Scanning) : Except Fault Scanning := do
  if !s.inFlow && !s.keyAllowed then throw malformed
  let s := if s.inFlow then s else s.openBlock s.cursor.column (·.emit .blockSequenceStart)
  let s ← (s.allowKey true).dropPossible
  return s.emitOver 1 .blockEntry

/-- A question mark in front of a key. -/
def complexKey (s : Scanning) : Except Fault Scanning := do
  if !s.inFlow && !s.keyAllowed then throw malformed
  let s := if s.inFlow then s else s.openBlock s.cursor.column (·.emit .blockMappingStart)
  let s ← (s.allowKey (!s.inFlow)).dropPossible
  return s.emitOver 1 .key

/-- A colon in front of a value: behind a possible key, which it makes one, or alone. -/
def value (s : Scanning) : Except Fault Scanning :=
  match s.possibleHere? with
  | some k =>
    let s := s.forgetPossible.emitAt k.position .key
    let s := if s.inFlow then s else s.openBlock k.column (·.emitAt k.position .blockMappingStart)
    .ok ((s.allowKey false).emitOver 1 .value)
  | none => do
    if !s.inFlow && !s.keyAllowed then throw malformed
    let s := if s.inFlow then s else s.openBlock s.cursor.column (·.emit .blockMappingStart)
    let s ← (s.allowKey (!s.inFlow)).dropPossible
    return s.emitOver 1 .value

/-- A token with an inside that could be a key. -/
def keyLike (s : Scanning) (read : Cursor → Except Fault (Token × Cursor)) : Except Fault Scanning := do
  let s ← s.savePossible
  let (t, c) ← read s.cursor
  return ({ s with cursor := c }.allowKey false).emit t

/-- A block scalar, which is never a key. -/
def block (s : Scanning) (folded : Bool) : Except Fault Scanning := do
  let s ← (s.allowKey true).dropPossible
  let (t, c) ← blockScalar folded s.indent s.cursor
  return { s with cursor := c }.emit (.scalar t false)

/-- A plain scalar. Behind a line break a key may start again. -/
def plain (s : Scanning) : Except Fault Scanning := do
  let s ← s.savePossible
  let (t, broke, c) := plainScalar s.inFlow (s.indent + 1) s.cursor
  return ({ s with cursor := c }.allowKey broke).emit (.scalar t true)

/-! ## Which token comes next -/

/-- The cursor at the next token. Behind a line break in a block a key may start. -/
def skipToToken (s : Scanning) : Nat → Scanning
  | 0 => s
  | n + 1 =>
    let c := s.cursor.skipSpaces.skipComment
    match c.lineBreak? with
    | some (_, c) =>
      skipToToken { s with cursor := c, keyAllowed := s.keyAllowed || !s.inFlow } n
    | none => { s with cursor := c }

/-- Whether a plain scalar can start at the cursor. -/
def startsPlain (s : Scanning) : Bool :=
  let x := s.cursor.head
  let special := isGapOrEnd x || ['-', '?', ':', ',', '[', ']', '\x7b', '\x7d', '#', '&', '*', '!',
    '|', '>', '\'', '"', '%', '@', Char.ofNat 0x60].contains x
  !special || (!isGapOrEnd (s.cursor.peek 1) && (x == '-' || (!s.inFlow && (x == '?' || x == ':'))))

/-- Reads the next token, and what indentation puts in front of it. -/
def step (s : Scanning) : Except Fault Scanning := do
  let s := s.skipToToken s.cursor.steps
  let s ← s.dropStale
  let s := s.unwind s.cursor.column
  let c := s.cursor
  let x := c.head
  let gap := isGapOrEnd (c.peek 1)
  if c.rest.isEmpty then s.finish
  else if x == '%' && c.column == 0 then do
    let s ← s.margin
    let (d, c) ← directive s.cursor
    return { s with cursor := c }.emit (.directive d)
  else if x == '-' && c.column == 0 && c.atDocumentMarker then do
    return (← s.margin).emitOver 3 .documentStart
  else if x == '.' && c.column == 0 && c.atDocumentMarker then do
    return (← s.margin).emitOver 3 .documentEnd
  else if x == '[' then s.openFlow .flowSequenceStart
  else if x == '\x7b' then s.openFlow .flowMappingStart
  else if x == ']' then s.closeFlow .flowSequenceEnd
  else if x == '\x7d' then s.closeFlow .flowMappingEnd
  else if x == ',' then s.flowEntry
  else if x == '-' && gap then s.blockEntry
  else if x == '?' && (s.inFlow || gap) then s.complexKey
  else if x == ':' && (s.inFlow || gap) then s.value
  else if x == '*' then s.keyLike fun c => do
    let (n, c) ← anchorName c
    return (.alias n, c)
  else if x == '&' then s.keyLike fun c => do
    let (n, c) ← anchorName c
    return (.anchor n, c)
  else if x == '!' then s.keyLike tag
  else if x == '|' && !s.inFlow then s.block false
  else if x == '>' && !s.inFlow then s.block true
  else if x == '\'' || x == '"' then s.keyLike fun c => do
    let (t, c) ← quotedScalar (x == '"') c
    return (.scalar t false, c)
  else if s.startsPlain then s.plain
  else throw malformed

/-- The tokens in front of the first place that may still turn out to be a key. -/
def settled (s : Scanning) : List Token :=
  let waiting : List Nat :=
    match s.dropStale with
    | .ok s => s.possible.map fun p => p.2.position
    | .error _ => []
  match waiting.min? with
  | some n => s.tokens.toList.take n
  | none => s.tokens.toList

/-- Reads tokens until the end or a fault. Every token takes a character, so the bound is never
reached. -/
def run : Nat → Scanning → List Token
  | 0, s => s.tokens.toList ++ [.streamEnd]
  | n + 1, s =>
    match s.step with
    | .error f => s.settled ++ [.broken f]
    | .ok s' => if s'.tokens.newest.head? = some .streamEnd then s'.tokens.toList else run n s'

end Scanning

/-- The tokens of a text. A byte-order mark in front of it is left out. -/
def tokens (t : Text) : List Token :=
  let s := Scanning.start t
  let s := if t.head? = some '\ufeff' then { s with cursor := s.cursor.next } else s
  s.run s.cursor.steps

end Yaml

end Renaming
