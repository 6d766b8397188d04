import Renaming.Fault

/-!
# `Yaml/Cursor` — a place in a document, with its line and column

Indentation and the one-line rule for keys make the reading of a document depend on columns and
lines, so a place is the rest of the text together with where it stands. Every reader below takes
a cursor and gives back the cursor behind what it read. The end of the text looks like the NUL
character, which no document may contain.
-/

set_option autoImplicit false

namespace Renaming

namespace Yaml

/-- The rest of a document and where it begins. -/
structure Cursor where
  rest : Text
  index : Nat
  line : Nat
  column : Nat
  /-- A bound on the number of steps that any reader can take. -/
  steps : Nat
  length_rest_lt : rest.length < steps

/-- A document that is not well formed. Nothing more is said about it. -/
def malformed : Fault := .format .invalidDocument

/-! ## Classes of characters -/

/-- The characters that end a line of a document. -/
def isBreak (c : Char) : Bool :=
  c == '\n' || c == '\r' || c == '\u0085' || c == '\u2028' || c == '\u2029'

def isBreakOrEnd (c : Char) : Bool := c == '\x00' || isBreak c

def isSpaceOrEnd (c : Char) : Bool := c == ' ' || isBreakOrEnd c

def isGapOrEnd (c : Char) : Bool := c == '\t' || isSpaceOrEnd c

/-- The characters of anchors, tag handles and directive names. -/
def isNameChar (c : Char) : Bool := c.isAlphanum || c == '-' || c == '_'

def isHexDigit (c : Char) : Bool :=
  c.isDigit || ('a' ≤ c && c ≤ 'f') || ('A' ≤ c && c ≤ 'F')

def hexValue (c : Char) : Nat :=
  if c.isDigit then c.toNat - 48 else if 'a' ≤ c then c.toNat - 87 else c.toNat - 55

/-- Whether a document may contain the character. -/
def isAllowed (c : Char) : Bool :=
  let n := c.toNat
  n == 0x09 || n == 0x0A || n == 0x0D || (0x20 ≤ n && n ≤ 0x7E) || n == 0x85 ||
    (0xA0 ≤ n && n ≤ 0xD7FF) || (0xE000 ≤ n && n ≤ 0xFFFD) || 0x10000 ≤ n

/-! ## Looking and moving -/

namespace Cursor

def start (t : Text) : Cursor := ⟨t, 0, 0, 0, t.length + 1, Nat.lt_succ_self _⟩

def peek (c : Cursor) (k : Nat) : Char := c.rest.getD k '\x00'

def head (c : Cursor) : Char := c.peek 0

/-- The cursor behind the next character. A carriage return in front of a line feed is not yet the
end of its line, and a byte-order mark takes no column. -/
def next (c : Cursor) : Cursor :=
  match h : c.rest with
  | [] => c
  | x :: r =>
    have shorter : r.length < c.steps := by
      have := c.length_rest_lt
      rw [h, List.length_cons] at this
      omega
    if isBreak x && !(x == '\r' && r.head? == some '\n') then
      ⟨r, c.index + 1, c.line + 1, 0, c.steps, shorter⟩
    else
      let column := if x == '\ufeff' then c.column else c.column + 1
      ⟨r, c.index + 1, c.line, column, c.steps, shorter⟩

def advance (c : Cursor) : Nat → Cursor
  | 0 => c
  | n + 1 => c.next.advance n

/-- The longest run of characters in `p`, and the cursor behind it. -/
def takeWhile (p : Char → Bool) (c : Cursor) : Text × Cursor :=
  let run := c.rest.takeWhile p
  (run, c.advance run.length)

/-- The cursor behind the longest run of characters in `p`. -/
def skipWhile (p : Char → Bool) (c : Cursor) : Cursor := (c.takeWhile p).2

/-- The cursor behind the spaces that stand here. -/
def skipSpaces (c : Cursor) : Cursor := c.skipWhile (· == ' ')

/-- The cursor behind a comment, if one starts here. -/
def skipComment (c : Cursor) : Cursor :=
  if c.head == '#' then c.skipWhile fun x => !isBreak x else c

/-- The line break at the cursor and the cursor behind it. Every break reads as a line feed except
the two separators, which stand for themselves. -/
def lineBreak? (c : Cursor) : Option (Char × Cursor) :=
  let x := c.head
  if x == '\r' && c.peek 1 == '\n' then some ('\n', c.advance 2)
  else if x == '\u2028' || x == '\u2029' then some (x, c.next)
  else if isBreak x then some ('\n', c.next)
  else none

/-- Whether one of the two document markers stands here, with a gap behind it. -/
def atDocumentMarker (c : Cursor) : Bool :=
  let three := c.rest.take 3
  (three == ['-', '-', '-'] || three == ['.', '.', '.']) && isGapOrEnd (c.peek 3)

end Cursor

end Yaml

end Renaming
