import Renaming.Yaml.Cursor

/-!
# `Yaml/Scalar` — the four spellings of a scalar

A scalar is written plain, between single or double quotes, or as a block of lines behind `|` or
`>`. Lines of the first three are folded: a single break between two lines reads as a space, and
every further one as itself. A block keeps its lines (`|`) or folds them (`>`), and what becomes
of the breaks at its end is said in its header.
-/

set_option autoImplicit false

namespace Renaming

namespace Yaml

/-- A single break reads as a space; with more breaks behind it only those are kept. The two
separators are never dropped. -/
def foldBreak (lineBreak : Char) (breaks : Text) : Text :=
  if lineBreak ≠ '\n' then lineBreak :: breaks else if breaks.isEmpty then [' '] else breaks

/-! ## Plain scalars -/

/-- The breaks after the first one between the lines of a plain scalar; nothing when a document
marker follows. -/
def plainBreaks : Nat → Text → Cursor → Option Text × Cursor
  | 0, acc, c => (some acc.reverse, c)
  | n + 1, acc, c =>
    if c.head == ' ' then plainBreaks n acc c.next
    else
      match c.lineBreak? with
      | none => (some acc.reverse, c)
      | some (b, c') => if c'.atDocumentMarker then (none, c') else plainBreaks n (b :: acc) c'

/-- What stands between two pieces of a plain scalar, whether a line ended there, and the cursor
behind it. Nothing means that the scalar ends. -/
def plainGap (c : Cursor) : Text × Bool × Cursor :=
  let (spaces, c) := c.takeWhile (· == ' ')
  match c.lineBreak? with
  | none => (spaces, false, c)
  | some (b, c) =>
    if c.atDocumentMarker then ([], true, c)
    else
      match plainBreaks c.steps [] c with
      | (none, c) => ([], true, c)
      | (some breaks, c) => (foldBreak b breaks, true, c)

/-- Whether a plain scalar ends in front of a character; `after` is the character behind it. -/
def endsPlain (inFlow : Bool) (x after : Char) : Bool :=
  isGapOrEnd x ||
    (x == ':' && (isGapOrEnd after || (inFlow && [',', '[', ']', '\x7b', '\x7d'].contains after))) ||
    (inFlow && [',', '?', '[', ']', '\x7b', '\x7d'].contains x)

/-- The piece of a plain scalar up to the next gap or indicator. -/
def plainPiece (inFlow : Bool) : Text → Text
  | [] => []
  | x :: r => if endsPlain inFlow x (r.headD '\x00') then [] else x :: plainPiece inFlow r

/-- The pieces of a plain scalar with what stands between them, whether a line ended behind the
last piece, and the cursor. -/
def plainPieces (inFlow : Bool) (indent : Int) : Nat → Text → Text → Bool → Cursor →
    Text × Bool × Cursor
  | 0, acc, _, broke, c => (acc, broke, c)
  | n + 1, acc, gap, broke, c =>
    if c.head == '#' then (acc, broke, c)
    else
      match plainPiece inFlow c.rest with
      | [] => (acc, broke, c)
      | piece =>
        let acc := acc ++ gap ++ piece
        let (gap, broke, c) := plainGap (c.advance piece.length)
        if gap.isEmpty || c.head == '#' || (!inFlow && (c.column : Int) < indent) then
          (acc, broke, c)
        else plainPieces inFlow indent n acc gap broke c

/-- A plain scalar, whether a line ended behind it, and the cursor behind it. -/
def plainScalar (inFlow : Bool) (indent : Int) (c : Cursor) : Text × Bool × Cursor :=
  plainPieces inFlow indent c.steps [] [] false c

/-! ## Quoted scalars -/

/-- The character that a letter behind a backslash stands for between double quotes. -/
def escape? : Char → Option Char
  | '0' => some '\x00'
  | 'a' => some '\x07'
  | 'b' => some '\x08'
  | 't' => some '\t'
  | '\t' => some '\t'
  | 'n' => some '\n'
  | 'v' => some '\x0b'
  | 'f' => some '\x0c'
  | 'r' => some '\r'
  | 'e' => some '\x1b'
  | ' ' => some ' '
  | '"' => some '"'
  | '\\' => some '\\'
  | '/' => some '/'
  | 'N' => some '\u0085'
  | '_' => some '\u00a0'
  | 'L' => some '\u2028'
  | 'P' => some '\u2029'
  | _ => none

/-- The number of hexadecimal digits behind a letter that announces a code point. -/
def escapeWidth? : Char → Option Nat
  | 'x' => some 2
  | 'u' => some 4
  | 'U' => some 8
  | _ => none

/-- The character of a code point. Half of a character that is spelt as two is none, beyond the last
code point there is none either, and beyond every machine integer it cannot even be asked for. -/
def codePoint (n : Nat) : Except Fault Char :=
  if 0xD800 ≤ n ∧ n < 0xE000 then .error (.value .loneSurrogate)
  else if n < 0x110000 then .ok (Char.ofNat n)
  else if n < 0x80000000 then .error (.value .noSuchValue)
  else .error (.value .outOfRange)

/-- The breaks at the cursor, with the blanks around them left out. A document marker may not
stand at the start of a line. -/
def quotedBreaks : Nat → Text → Cursor → Except Fault (Text × Cursor)
  | 0, _, _ => .error malformed
  | n + 1, acc, c =>
    if c.atDocumentMarker then .error malformed
    else
      let c := c.skipWhile fun x => x == ' ' || x == '\t'
      match c.lineBreak? with
      | some (b, c) => quotedBreaks n (b :: acc) c
      | none => .ok (acc.reverse, c)

/-- A character behind a backslash between double quotes, and the cursor behind it. An escaped
break joins two lines. -/
def escaped (c : Cursor) : Except Fault (Text × Cursor) :=
  match escape? c.head, escapeWidth? c.head with
  | some x, _ => .ok ([x], c.next)
  | none, some width =>
    let digits := c.next.rest.take width
    if digits.length = width ∧ digits.all isHexDigit then do
      let x ← codePoint (digits.foldl (fun n d => 16 * n + hexValue d) 0)
      return ([x], c.next.advance width)
    else .error malformed
  | none, none =>
    match c.lineBreak? with
    | some (_, c) => quotedBreaks c.steps [] c
    | none => .error malformed

/-- The characters of a quoted scalar up to a blank, a break or its closing quote. -/
def quotedPiece (double : Bool) : Nat → Text → Cursor → Except Fault (Text × Cursor)
  | 0, _, _ => .error malformed
  | n + 1, acc, c =>
    let x := c.head
    if isGapOrEnd x then .ok (acc, c)
    else if double then
      if x == '"' then .ok (acc, c)
      else if x == '\\' then do
        let (t, c) ← escaped c.next
        quotedPiece double n (acc ++ t) c
      else quotedPiece double n (acc ++ [x]) c.next
    else if x == '\'' then
      if c.peek 1 == '\'' then quotedPiece double n (acc ++ ['\'']) (c.advance 2) else .ok (acc, c)
    else quotedPiece double n (acc ++ [x]) c.next

/-- What a run of blanks and breaks inside a quoted scalar reads as. -/
def quotedGap (c : Cursor) : Except Fault (Text × Cursor) :=
  let (blanks, c) := c.takeWhile fun x => x == ' ' || x == '\t'
  if c.rest.isEmpty then .error malformed
  else
    match c.lineBreak? with
    | none => .ok (blanks, c)
    | some (b, c) => do
      let (breaks, c) ← quotedBreaks c.steps [] c
      return (foldBreak b breaks, c)

/-- The rest of a quoted scalar up to its closing quote. -/
def quotedRest (double : Bool) (quote : Char) : Nat → Text → Cursor → Except Fault (Text × Cursor)
  | 0, _, _ => .error malformed
  | n + 1, acc, c =>
    if c.head == quote then .ok (acc, c.next)
    else do
      let (gap, c) ← quotedGap c
      let (piece, c) ← quotedPiece double c.steps [] c
      quotedRest double quote n (acc ++ gap ++ piece) c

def quotedScalar (double : Bool) (c : Cursor) : Except Fault (Text × Cursor) := do
  let quote := c.head
  let (piece, c') ← quotedPiece double c.steps [] c.next
  quotedRest double quote c.steps piece c'

/-! ## Block scalars -/

/-- What becomes of the breaks at the end of a block. -/
inductive Chomping where
  /-- One is kept. -/
  | clip
  /-- All are kept. -/
  | keep
  /-- None is kept. -/
  | strip
deriving DecidableEq, Repr

/-- The header of a block: its chomping and its indentation, if it is given. -/
structure BlockHeader where
  chomping : Chomping
  increment : Option Nat

def chomping? (c : Cursor) : Option Chomping :=
  if c.head == '+' then some .keep else if c.head == '-' then some .strip else none

/-- The digit of the indentation at the cursor. Zero is refused. -/
def increment? (c : Cursor) : Except Fault (Option Nat) :=
  if c.head.isDigit then
    if c.head == '0' then .error malformed else .ok (some (c.head.toNat - 48))
  else .ok none

/-- The header of a block: the two marks in any order. -/
def blockHeader (c : Cursor) : Except Fault (BlockHeader × Cursor) := do
  let (header, c) ← match chomping? c with
    | some ch => do
      let c := c.next
      match ← increment? c with
      | some i => pure (BlockHeader.mk ch (some i), c.next)
      | none => pure (BlockHeader.mk ch none, c)
    | none => do
      match ← increment? c with
      | some i =>
        let c := c.next
        match chomping? c with
        | some ch => pure (BlockHeader.mk ch (some i), c.next)
        | none => pure (BlockHeader.mk .clip (some i), c)
      | none => pure (BlockHeader.mk .clip none, c)
  if isSpaceOrEnd c.head then return (header, c) else throw malformed

/-- The cursor behind the rest of a line on which only a comment may stand. -/
def ignoredLine (c : Cursor) : Except Fault Cursor :=
  let c := c.skipSpaces.skipComment
  if c.rest.isEmpty then .ok c
  else
    match c.lineBreak? with
    | some (_, c) => .ok c
    | none => .error malformed

/-- The breaks in front of the first line of a block, and the widest indentation seen. -/
def blockIndentation : Nat → Text → Nat → Cursor → Text × Nat × Cursor
  | 0, acc, widest, c => (acc.reverse, widest, c)
  | n + 1, acc, widest, c =>
    if c.head == ' ' then blockIndentation n acc (max widest c.next.column) c.next
    else
      match c.lineBreak? with
      | some (b, c) => blockIndentation n (b :: acc) widest c
      | none => (acc.reverse, widest, c)

/-- The cursor behind the spaces here, up to a column. -/
def skipIndent (indent : Int) : Nat → Cursor → Cursor
  | 0, c => c
  | n + 1, c => if (c.column : Int) < indent && c.head == ' ' then skipIndent indent n c.next else c

def blockBreaks (indent : Int) : Nat → Text → Cursor → Text × Cursor
  | 0, acc, c => (acc.reverse, c)
  | n + 1, acc, c =>
    let c := skipIndent indent c.steps c
    match c.lineBreak? with
    | some (b, c) => blockBreaks indent n (b :: acc) c
    | none => (acc.reverse, c)

/-- The lines of a block from the cursor on, the break behind the last of them, the breaks that
follow, and the cursor. `breaks` stand in front of the first line. -/
def blockLines (folded : Bool) (indent : Int) : Nat → Text → Text → Text → Cursor →
    Text × Text × Text × Cursor
  | 0, acc, lineBreak, breaks, c => (acc, lineBreak, breaks, c)
  | n + 1, acc, lineBreak, breaks, c =>
    if (c.column : Int) = indent ∧ !c.rest.isEmpty then
      let startsPlain := !(c.head == ' ' || c.head == '\t')
      let (line, c) := c.takeWhile fun x => !isBreak x
      let acc := acc ++ breaks ++ line
      let (lineBreak, c) := match c.lineBreak? with
        | some (b, c) => ([b], c)
        | none => ([], c)
      let (breaks, c) := blockBreaks indent c.steps [] c
      if (c.column : Int) = indent ∧ !c.rest.isEmpty then
        let folds := folded && lineBreak == ['\n'] && startsPlain &&
          !(c.head == ' ' || c.head == '\t')
        let acc := if folds then (if breaks.isEmpty then acc ++ [' '] else acc) else acc ++ lineBreak
        blockLines folded indent n acc lineBreak breaks c
      else (acc, lineBreak, breaks, c)
    else (acc, lineBreak, breaks, c)

/-- A block scalar behind its indicator, and the cursor behind it. -/
def blockScalar (folded : Bool) (parentIndent : Int) (c : Cursor) : Except Fault (Text × Cursor) := do
  let (header, c) ← blockHeader c.next
  let c ← ignoredLine c
  let least := max 1 (parentIndent + 1)
  let (indent, breaks, c) := match header.increment with
    | none =>
      let (breaks, widest, c) := blockIndentation c.steps [] 0 c
      (max least widest, breaks, c)
    | some i =>
      let indent := least + i - 1
      let (breaks, c) := blockBreaks indent c.steps [] c
      (indent, breaks, c)
  let (text, lineBreak, breaks, c) := blockLines folded indent c.steps [] [] breaks c
  let tail := match header.chomping with
    | .strip => []
    | .clip => lineBreak
    | .keep => lineBreak ++ breaks
  return (text ++ tail, c)

end Yaml

end Renaming
