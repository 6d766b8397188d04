import Renaming.Assembly.Literal

/-!
# `Assembly/Line` — a line of code while names in it are replaced

Several passes go over a line, and what one has replaced the others leave alone. So a line is kept
as its pieces: characters that are still as they were, and names that were replaced, old and new
side by side. What the line says now is its `text`, what it said at first its `source`, and since
no pass changes the source, all passes together are one replacement of places of the source.
-/

set_option autoImplicit false

namespace Renaming

namespace Assembly

/-- A piece of a line. -/
inductive Piece where
  | kept (c : Char)
  | replaced (old new : Text)
deriving DecidableEq, Repr

namespace Piece

def text : Piece → Text
  | kept c => [c]
  | replaced _ new => new

def source : Piece → Text
  | kept c => [c]
  | replaced old _ => old

/-- Whether the piece says something else than at first. -/
def isRenamed : Piece → Bool
  | kept _ => false
  | replaced old new => old != new

end Piece

/-- A replacement of a part of a text. -/
structure Edit where
  span : Span
  replacement : Text
deriving DecidableEq, Repr

/-- A line as its pieces. -/
structure Line where
  pieces : List Piece
deriving DecidableEq, Repr

namespace Line

def ofText (t : Text) : Line := ⟨t.map .kept⟩

def text (l : Line) : Text := l.pieces.flatMap Piece.text

def source (l : Line) : Text := l.pieces.flatMap Piece.source

/-- The number of names that were replaced by other ones. -/
def renamed (l : Line) : Nat := l.pieces.countP Piece.isRenamed

/-- Where the replaced names stand, from a place on. -/
def replacedFrom (i : Nat) : List Piece → List Span
  | [] => []
  | .kept _ :: r => replacedFrom (i + 1) r
  | .replaced _ new :: r => ⟨i, i + new.length⟩ :: replacedFrom (i + new.length) r

/-- The parts of a line that no pass may touch: its literals and the names that were replaced. -/
def blocked (l : Line) : List Span := literals l.text ++ replacedFrom 0 l.pieces

/-- Whether a part of the line may be touched. -/
def isFree (l : Line) (s : Span) : Bool := !l.blocked.any s.overlaps

/-! ## Replacing -/

/-- The pieces that say the first `n` characters, and the others. -/
def split : Nat → List Piece → List Piece × List Piece
  | _, [] => ([], [])
  | n, p :: ps =>
    if n = 0 ∨ n < p.text.length then ([], p :: ps)
    else
      let (front, back) := split (n - p.text.length) ps
      (p :: front, back)

/-- The pieces, which begin at place `i`, with edits carried out from left to right. -/
def editFrom (i : Nat) : List Edit → List Piece → List Piece
  | [], ps => ps
  | e :: es, ps =>
    let (front, rest) := split (e.span.start - i) ps
    let (old, back) := split (e.span.stop - e.span.start) rest
    front ++ .replaced (old.flatMap Piece.source) e.replacement :: editFrom e.span.stop es back

/-- The line with edits carried out. They are in order and apart from each other. -/
def edit (l : Line) (es : List Edit) : Line := ⟨editFrom 0 es l.pieces⟩

@[simp] theorem edit_nil (l : Line) : l.edit [] = l := rfl

@[simp] theorem source_ofText (t : Text) : (ofText t).source = t := by
  induction t with
  | nil => rfl
  | cons c r ih =>
    simp only [ofText, source, List.map_cons, List.flatMap_cons, Piece.source] at ih ⊢
    rw [ih]; rfl

@[simp] theorem text_ofText (t : Text) : (ofText t).text = t := by
  induction t with
  | nil => rfl
  | cons c r ih =>
    simp only [ofText, text, List.map_cons, List.flatMap_cons, Piece.text] at ih ⊢
    rw [ih]; rfl

theorem split_append (n : Nat) (ps : List Piece) : (split n ps).1 ++ (split n ps).2 = ps := by
  induction ps generalizing n with
  | nil => rfl
  | cons p ps ih =>
    rw [split]
    split
    · rfl
    · simp [ih]

theorem source_editFrom (i : Nat) (es : List Edit) (ps : List Piece) :
    (editFrom i es ps).flatMap Piece.source = ps.flatMap Piece.source := by
  induction es generalizing i ps with
  | nil => rfl
  | cons e es ih =>
    have h₁ := split_append (e.span.start - i) ps
    have h₂ := split_append (e.span.stop - e.span.start) (split (e.span.start - i) ps).2
    simp only [editFrom, List.flatMap_append, List.flatMap_cons, Piece.source, ih]
    rw [← List.flatMap_append, h₂, ← List.flatMap_append, h₁]

/-- Whatever is replaced, the source stays. -/
@[simp] theorem source_edit (l : Line) (es : List Edit) : (l.edit es).source = l.source :=
  source_editFrom 0 es l.pieces

end Line

end Assembly

end Renaming
