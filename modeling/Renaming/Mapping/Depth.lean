import Renaming.Symbol.Depth
import Renaming.Mapping.Build

/-!
# `Mapping/Depth` — the table of a mapping in a number of frames

A class row that lacks its target name is looked up through the classes around it, and so is a class
that is mentioned as an owner and lacks its name in one of the two tiers. How deep these look-ups go
is known once the tiers are chosen (`depthBetween`), and the table is made when the stack is deep
enough for all of them (`tableWithin`). Class rows and owners can hold any number of dollar signs,
so there are mappings for which no stack is.
-/

set_option autoImplicit false

namespace Renaming

namespace Mapping

/-- The depth of the look-up of the target name of a class row. -/
def renameDepth (m : Mapping) (s t : Nat) (c : ClassRow) : Nat :=
  match c.declared, nameAt c.names s, nameAt c.names t with
  | true, some source, none => nestingDepth (m.namedClasses s t).get? source
  | _, _, _ => 0

/-- The depth of the look-ups of an owner of members in both tiers. -/
def ownerDepth (n : TierNames) (s t : Nat) (p : Text × ClassRow) : Nat :=
  max (if (nameAt p.2.names s).isSome then 0 else nestingDepth n.toSource.get? p.1)
    (if (nameAt p.2.names t).isSome then 0 else nestingDepth n.toTarget.get? p.1)

/-- The depth of making the table of the renames from tier `s` to tier `t`. -/
def depthBetween (m : Mapping) (s t : Nat) : Nat :=
  max (deepest (m.classes.values.map (m.renameDepth s t)))
    (deepest (m.classes.toList.map (ownerDepth (m.tierNames s t) s t)))

/-- The table of the renames from tier `s` to tier `t`, unless one of its look-ups takes more frames
than there are. -/
def tableBetweenWithin (frames : Nat) (m : Mapping) (s t : Nat) : Except Fault Table := do
  checkDepth frames (m.depthBetween s t)
  return m.tableBetween s t

/-- The table of the renames between two namespaces, as `table` chooses them. -/
def tableWithin (frames : Nat) (m : Mapping) (source target : Option Text) : Except Fault Table := do
  let (s, t) ← m.tiers source target
  if m.isTiered && m.namespaces.isEmpty then (← m.outermost).tableBetweenWithin frames 0 1
  else m.tableBetweenWithin frames s t

end Mapping

end Renaming
