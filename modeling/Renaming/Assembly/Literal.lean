import Renaming.Text.Basic

/-!
# `Assembly/Literal` — where literals and comments of an assembly line are

A line of assembly text is code, then possibly a comment behind a number sign. A double quote opens
a literal, in which a backslash guards the next character and a number sign is only a character.
Both questions — where does the comment start, where do the literals lie — go through the line with
one notion of where a character stands, its `Zone`, so they cannot disagree about a quote.
-/

set_option autoImplicit false

namespace Renaming

/-- A part of a text by its places: the first one and the one behind the last. -/
structure Span where
  start : Nat
  stop : Nat
deriving DecidableEq, Repr

/-- Whether two spans share a place. An empty span shares the place it lies strictly inside of. -/
def Span.overlaps (a b : Span) : Bool := a.start < b.stop && b.start < a.stop

def Span.part (s : Span) (t : Text) : Text := (t.drop s.start).take (s.stop - s.start)

namespace Assembly

/-- Where a character of a line stands. -/
inductive Zone where
  | code
  | literal
  /-- Behind a backslash in a literal. -/
  | guarded
deriving DecidableEq, Repr

def Zone.next : Zone → Char → Zone
  | code, c => if c = '"' then literal else code
  | literal, c => if c = '\\' then guarded else if c = '"' then code else literal
  | guarded, _ => literal

/-! ## Comments -/

/-- The code of a line from a zone on, and the comment behind it. -/
def splitFrom : Zone → Text → Text × Text
  | _, [] => ([], [])
  | z, c :: r =>
    if z = .code ∧ c = '#' then ([], c :: r)
    else (c :: (splitFrom (z.next c) r).1, (splitFrom (z.next c) r).2)

/-- The code of a line and its comment, which starts with the number sign. -/
def splitComment (line : Text) : Text × Text := splitFrom .code line

/-- Code and comment make up the line. -/
theorem splitFrom_append (z : Zone) (t : Text) : (splitFrom z t).1 ++ (splitFrom z t).2 = t := by
  induction t generalizing z with
  | nil => rfl
  | cons c r ih =>
    rw [splitFrom]
    split
    · rfl
    · rw [List.cons_append, ih]

@[simp] theorem splitComment_append (line : Text) :
    (splitComment line).1 ++ (splitComment line).2 = line := splitFrom_append .code line

/-! ## Literals -/

/-- The literals of a text from a place on. In a literal, `opened` is where it began. A literal that
is not closed reaches to the end. -/
def literalsFrom (opened : Nat) : Zone → Nat → Text → List Span
  | .code, _, [] => []
  | _, i, [] => [⟨opened, i⟩]
  | .code, i, c :: r =>
    if c = '"' then literalsFrom i .literal (i + 1) r else literalsFrom opened .code (i + 1) r
  | .literal, i, c :: r =>
    if c = '\\' then literalsFrom opened .guarded (i + 1) r
    else if c = '"' then ⟨opened, i + 1⟩ :: literalsFrom opened .code (i + 1) r
    else literalsFrom opened .literal (i + 1) r
  | .guarded, i, _ :: r => literalsFrom opened .literal (i + 1) r

/-- The literals of a text with their quotes, from left to right. -/
def literals (t : Text) : List Span := literalsFrom 0 .code 0 t

end Assembly

end Renaming
