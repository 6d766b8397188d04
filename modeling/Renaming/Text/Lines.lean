import Renaming.Text.Blank

/-!
# `Text/Lines` — the lines of a mapping file

A mapping file is cut at every line boundary that Unicode knows, not only at the line feed: the
vertical tab, the form feed, the three upper information separators, the next-line character and
the line and paragraph separators end a line as well, and a carriage return with the line feed
after it is one boundary. Lines are numbered before blank and comment lines are left out, so the
number in a message is the one that an editor shows.
-/

set_option autoImplicit false

namespace Renaming

namespace Text

/-- The characters that end a line. -/
def isLineBoundary (c : Char) : Bool :=
  inRanges [(0x0A, 0x0D), (0x1C, 0x1E), (0x85, 0x85), (0x2028, 0x2029)] c.toNat

/-- The lines without their boundaries. A boundary at the very end opens no further line. -/
def lines : Text → List Text
  | [] => []
  | '\r' :: '\n' :: r => [] :: lines r
  | c :: r =>
    if isLineBoundary c then [] :: lines r
    else
      match lines r with
      | [] => [[c]]
      | l :: ls => (c :: l) :: ls

/-- The lines with their numbers, counted from one. -/
def numberedLines (t : Text) : List (Nat × Text) :=
  t.lines.zipIdx 1 |>.map fun p => (p.2, p.1)

/-- Whether a line says something: it is not blank and no comment starts it. -/
def hasContent (line : Text) : Bool := !isBlankText line && !startsWith ['#'] line

/-- The numbered lines that say something. -/
def contentLines (t : Text) : List (Nat × Text) :=
  t.numberedLines.filter fun p => hasContent p.2

end Text

end Renaming
