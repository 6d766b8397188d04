import Renaming.Symbol.Depth
import Renaming.Table.Compose
import Renaming.Table.Reverse

/-!
# `Table/Depth` — questions to a table in a number of frames

Turning a table round and putting two together look up the owners of members and the new names of
classes, as does the renaming of a class. What any of them needs of the stack is the depth of its
deepest look-up; where that is more than there is, nothing comes of the whole.

The tables themselves are those of `Table/Reverse` and `Table/Compose`, which know no bound. A
composition can be refused for its comments too, and the comments of one member may come before the
look-ups of the next: of the two reasons the look-ups are given here.
-/

set_option autoImplicit false

namespace Renaming

namespace Table

/-- The depth of the look-up of a class among the renamed classes. -/
def nestedDepth (t : Table) (name : Text) : Nat := nestingDepth t.classes.get? name

/-- The depth of the renaming of a class. A class in an excluded package is not looked up. -/
def classDepth (t : Table) (name : Text) : Nat := if t.isExcluded name then 0 else t.nestedDepth name

/-- The new name of a class, unless looking it up takes more frames than there are. -/
def mapClassWithin (frames : Nat) (t : Table) (name : Text) : Except Fault Text := do
  checkDepth frames (t.classDepth name)
  return t.mapClass name

/-- The keys of fields and of methods that are member keys. -/
def memberKeys (t : Table) : List MemberKey :=
  t.fields.keys.filterMap (fun k => (MemberKey.parse k).toOption) ++
    t.methods.keys.filterMap fun k => (MemberKey.parseMethod k).toOption

/-! ## The opposite step -/

def reverseDepth (t : Table) : Nat := deepest (t.memberKeys.map fun k => t.nestedDepth k.owner)

/-- The table of the opposite step, unless looking up an owner of members takes more frames than
there are. -/
def reverseWithin (frames : Nat) (t : Table) : Except Fault Table := do
  checkDepth frames t.reverseDepth
  return t.reverse

/-! ## Steps in order -/

/-- The depth of putting two tables together: classes are carried on through the second one, and the
owners of members go through both. -/
def composeDepth (first second : Table) : Nat :=
  max (deepest (first.classes.values.map second.nestedDepth))
    (deepest (first.memberKeys.map fun k =>
      max (first.nestedDepth k.owner) (second.nestedDepth (first.mapNested k.owner))))

/-- The composition of two tables, refused when two comments cannot be made one. -/
def composedWithin (frames : Nat) (first second : Table) : Except Fault Table := do
  checkDepth frames (composeDepth first second)
  first.composed second

/-- A chain of steps from left to right, each two of which have to be put together in a number of
frames. The frames are free again when two steps are one. -/
def chainWithin (frames : Nat) : List Table → Except Fault Table
  | [] => .error .emptyChain
  | t :: ts => ts.foldlM (composedWithin frames) t

end Table

end Renaming
