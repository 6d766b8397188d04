import Renaming.Assembly.Pass

/-!
# `Assembly/Renamed` — renaming a whole assembly text

The first declaration in a text names its class; a text without one is left as it is. Lines end at
line feeds only, and a carriage return in front of one is put aside, as is the comment of a line.
-/

set_option autoImplicit false

namespace Renaming

namespace Assembly

def sourceLines (t : Text) : List Text := Text.splitOn '\n' t

/-- The class that a text declares first. A declaration stands at the start of a line, blanks aside;
what a comment holds does not count. -/
def findClassName (t : Text) : Option Text :=
  (sourceLines t).findSome? fun l => declaration? (splitComment l).1

/-- A line without the carriage return at its end, and that carriage return. -/
def splitReturn (line : Text) : Text × Text :=
  if line.getLast? = some '\r' then (line.dropLast, ['\r']) else (line, [])

/-- The parts of a line: code, comment, and carriage return. -/
structure LineParts where
  code : Text
  comment : Text
  ending : Text
deriving DecidableEq, Repr

def lineParts (line : Text) : LineParts :=
  let (body, ending) := splitReturn line
  let (code, comment) := splitComment body
  ⟨code, comment, ending⟩

/-- A line renamed: what it says now and how many names in it were changed. -/
def renamedLine (t : Table) (owner line : Text) : Text × Nat :=
  let parts := lineParts line
  let l := renameLine t owner parts.code
  (l.text ++ parts.comment ++ parts.ending, l.renamed)

/-- A text renamed: what it says now, its class under the old and the new name, and how many names
in it were changed. -/
structure Renamed where
  text : Text
  className : Option Text
  newName : Option Text
  renamed : Nat
deriving DecidableEq, Repr

/-- Renames the names in an assembly text. Every line is renamed on its own, with the class that the
text declares first as the owner of what is defined; a text that declares none is left as it is. -/
def rename (t : Table) (text : Text) : Renamed :=
  match findClassName text with
  | none => ⟨text, none, none, 0⟩
  | some owner =>
    let ls := (sourceLines text).map (renamedLine t owner)
    ⟨Text.joinWith '\n' (ls.map Prod.fst), some owner, some (t.mapClass owner),
      ls.foldr (fun l n => l.2 + n) 0⟩

end Assembly

end Renaming
