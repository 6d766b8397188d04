import Renaming.Assembly.Renamed
import Renaming.Table.Depth

/-!
# `Assembly/Depth` — renaming a text in a number of frames

The owners of references and the classes in types are looked up through the classes around them, as
is the class that a text declares; definitions ask for exact renames only. A pass looks up what it
finds outside literals and outside the names that were replaced before, so what it looks up depends
on the passes in front of it.
-/

set_option autoImplicit false

namespace Renaming

namespace Assembly

/-- The classes that the third pass looks up in a line. -/
def referredOwners (l : Line) : List Text :=
  (scan reference? l.text).filterMap fun (i, r, n) => if l.isFree ⟨i, i + n⟩ then some r.owner else none

/-- The classes that the fourth pass looks up in a line. -/
def typedClasses (l : Line) : List Text :=
  (scan type? l.text).filterMap fun (i, name, n) => if l.isFree ⟨i, i + n⟩ then some name else none

/-- The classes that are looked up on the way of a line through the passes. -/
def lookedUp (t : Table) (owner code : Text) : List Text :=
  let l := methodPass t owner (fieldPass t owner (.ofText code))
  referredOwners l ++ typedClasses (referencePass t l)

/-- The depth of renaming a text. Without a declaration nothing is looked up. -/
def depth (t : Table) (text : Text) : Nat :=
  match findClassName text with
  | none => 0
  | some owner =>
    max (t.classDepth owner)
      (deepest ((sourceLines text).map fun l =>
        deepest ((lookedUp t owner (lineParts l).code).map t.classDepth)))

/-- Renames the names in an assembly text, unless one of its look-ups takes more frames than there
are. Then there is no text at all, not even for the lines in front. -/
def renameWithin (frames : Nat) (t : Table) (text : Text) : Except Fault Renamed := do
  checkDepth frames (depth t text)
  return rename t text

end Assembly

end Renaming
