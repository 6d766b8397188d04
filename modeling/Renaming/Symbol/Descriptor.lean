import Renaming.Symbol.Key

/-!
# `Symbol/Descriptor` — types in their compact spelling

A descriptor spells a type, or the parameter types and the result of a method, with one letter per
primitive type and `L…;` around the name of a class. Renaming touches the class names and nothing
else. `pieces` takes any text apart into class names and single other characters; a class name
that is never closed is one last piece and is kept as it stands. Since the pieces put together
again give the text back, a statement about renaming is a statement about a list of pieces.

A display type is the spelling used in source code: a primitive keyword or a dotted class name,
with a pair of brackets per array dimension.
-/

set_option autoImplicit false

namespace Renaming

namespace Descriptor

/-- A part of a descriptor. -/
inductive Piece where
  /-- A character outside class names: a primitive, an array bracket or a parenthesis. -/
  | mark (c : Char)
  /-- The name of a class between its `L` and its semicolon. -/
  | className (name : Text)
  /-- What follows an `L` that no semicolon closes. -/
  | unclosed (rest : Text)
deriving DecidableEq, Repr

def Piece.text : Piece → Text
  | mark c => [c]
  | className name => 'L' :: name ++ [';']
  | unclosed rest => 'L' :: rest

/-- The parts of a text read as a descriptor. Behind an `L`, `opened` holds the class name so
far. -/
def piecesFrom : Option Text → Text → List Piece
  | none, [] => []
  | some opened, [] => [.unclosed opened]
  | none, c :: r => if c = 'L' then piecesFrom (some []) r else .mark c :: piecesFrom none r
  | some opened, c :: r =>
    if c = ';' then .className opened :: piecesFrom none r else piecesFrom (some (opened ++ [c])) r

/-- The parts of a text read as a descriptor. -/
def pieces (d : Text) : List Piece := piecesFrom none d

def ofPieces (ps : List Piece) : Text := ps.flatMap Piece.text

/-- The text behind an `L` and a class name that goes on in `d`, or `d` outside of class names. -/
def opening : Option Text → Text → Text
  | none, d => d
  | some opened, d => 'L' :: opened ++ d

theorem ofPieces_piecesFrom (o : Option Text) (d : Text) :
    ofPieces (piecesFrom o d) = opening o d := by
  induction d generalizing o with
  | nil => cases o <;> simp [piecesFrom, ofPieces, opening, Piece.text]
  | cons c r ih =>
    cases o with
    | none =>
      rw [piecesFrom]
      split
      · rename_i h
        simp [ih, opening, h]
      · have hr := ih none
        simp only [ofPieces, opening] at hr ⊢
        simp [Piece.text, hr]
    | some opened =>
      rw [piecesFrom]
      split
      · rename_i h
        have hr := ih none
        simp only [ofPieces, opening] at hr ⊢
        simp [Piece.text, hr, h]
      · simp [ih, opening]

/-- Taking a descriptor apart loses nothing. -/
@[simp] theorem ofPieces_pieces (d : Text) : ofPieces (pieces d) = d := ofPieces_piecesFrom none d

/-- The piece with its class name changed by `f`. -/
def Piece.rename (f : Text → Text) : Piece → Piece
  | mark c => mark c
  | className name => className (f name)
  | unclosed rest => unclosed rest

/-- The descriptor with every class name changed by `f`. -/
def rename (f : Text → Text) (d : Text) : Text := ofPieces ((pieces d).map (Piece.rename f))

def classNames (d : Text) : List Text :=
  (pieces d).filterMap fun
    | .className name => some name
    | _ => none

def primitive? (keyword : Text) : Option Char :=
  [("void", 'V'), ("boolean", 'Z'), ("byte", 'B'), ("char", 'C'), ("short", 'S'), ("int", 'I'),
    ("long", 'J'), ("float", 'F'), ("double", 'D')].findSome? fun p =>
      if p.1.toList = keyword then some p.2 else none

/-- A dotted class name with slashes instead of dots. -/
def internalName (name : Text) : Text := Text.replaceChar '.' '/' name

/-- Takes the pairs of brackets off the end of a reversed type: their number and what is left. -/
def dropBrackets : Text → Nat × Text
  | ']' :: '[' :: r => let (n, rest) := dropBrackets r; (n + 1, rest)
  | r => (0, r)

/-- The descriptor of a display type. -/
def ofDisplay (type : Text) : Text :=
  let (dimensions, reversed) := dropBrackets (Text.trim type).reverse
  let base := reversed.reverse
  List.replicate dimensions '[' ++
    match primitive? base with
    | some c => [c]
    | none => 'L' :: internalName base ++ [';']

/-- The descriptor of a method with these display types. -/
def ofMethod (parameters : List Text) (returns : Text) : Text :=
  '(' :: parameters.flatMap ofDisplay ++ ')' :: ofDisplay returns

example : ofDisplay "java.lang.String[][]".toList = "[[Ljava/lang/String;".toList := by
  decide +kernel

end Descriptor

end Renaming
