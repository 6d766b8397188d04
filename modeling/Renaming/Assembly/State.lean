import Renaming.Assembly.Pass

/-!
# `Assembly/State` — a line as its text and the spans that were rewritten

`Assembly/Line` keeps the pieces of a line, so that nothing in it ever moves. The passes can also be
run on the text alone. Then the line carries along which spans of its text earlier passes have
written, and every replacement moves what stands behind it: the edits of one pass are made with a
running displacement, and the spans of the passes before are displaced by those edits that end in
front of them.

`Line.state` forgets the pieces of a line. That the passes do the same to either form of it is
`Proofs/Assembly/State`.
-/

set_option autoImplicit false

namespace Renaming

/-- A span some places further on, or back. -/
def Span.moved (s : Span) (n : Int) : Span := ⟨(s.start + n).toNat, (s.stop + n).toNat⟩

/-- The order in which spans are listed: by their first place, then by their last. -/
def Span.le (a b : Span) : Bool := a.start < b.start || (a.start == b.start && a.stop ≤ b.stop)

namespace Assembly

/-- By how much an edit makes a text longer. -/
def Edit.growth (e : Edit) : Int := e.replacement.length - (e.span.stop - e.span.start)

/-- The line between two passes: its text, the spans of it that were rewritten, and the number of
names that were changed. -/
structure LineState where
  text : Text
  rewritten : List Span := []
  renamed : Nat := 0
deriving DecidableEq, Repr

namespace LineState

def blocked (s : LineState) : List Span := literals s.text ++ s.rewritten

def isFree (s : LineState) (p : Span) : Bool := !s.blocked.any p.overlaps

/-- The edits of a pass, on the way from left to right. -/
structure Sweep where
  /-- The new text so far. -/
  done : Text := []
  /-- The place in the old text behind the last edit. -/
  cursor : Nat := 0
  /-- By how much what follows has moved. -/
  delta : Int := 0
  /-- The spans of the new text that the edits have written. -/
  spans : List Span := []
  renamed : Nat
deriving DecidableEq, Repr

/-- Makes one more edit to a text. -/
def Sweep.edit (text : Text) (w : Sweep) (e : Edit) : Sweep :=
  let start := (e.span.start + w.delta).toNat
  { done := w.done ++ Span.part ⟨w.cursor, e.span.start⟩ text ++ e.replacement
    cursor := e.span.stop
    delta := w.delta + e.growth
    spans := w.spans ++ [⟨start, start + e.replacement.length⟩]
    renamed := w.renamed + if e.replacement = e.span.part text then 0 else 1 }

/-- How far edits move a span that was there before: those that end in front of it count. -/
def shift (es : List Edit) (p : Span) : Int :=
  (es.filter fun e => e.span.stop ≤ p.start).foldr (fun e n => e.growth + n) 0

/-- Makes the edits of a pass, which are apart from each other. No edit at all leaves the line as it
is; otherwise all spans are listed anew. -/
def apply (s : LineState) (es : List Edit) : LineState :=
  if es = [] then s
  else
    let es := es.mergeSort fun a b => a.span.start ≤ b.span.start
    let w := es.foldl (Sweep.edit s.text) { renamed := s.renamed }
    { text := w.done ++ s.text.drop w.cursor
      rewritten := ((s.rewritten.map fun p => p.moved (shift es p)) ++ w.spans).mergeSort Span.le
      renamed := w.renamed }

/-- Runs a pass, told by its edits for a text and the parts of it that may be touched. -/
def run (s : LineState) (edits : Text → (Span → Bool) → List Edit) : LineState :=
  s.apply (edits s.text s.isFree)

/-- All passes over the code of a line of class `owner`, in order. -/
def rename (t : Table) (owner code : Text) : LineState :=
  [fieldPassEdits t owner, methodPassEdits t owner, referencePassEdits t, typePassEdits t].foldl
    run { text := code }

end LineState

/-- The line without its pieces: its text, the places of the replaced names in it, and how many of
them are not what they were. -/
def Line.state (l : Line) : LineState := ⟨l.text, replacedFrom 0 l.pieces, l.renamed⟩

end Assembly

end Renaming
