import Renaming.Table.Lookup

/-!
# `Table/Reverse` — the opposite step

Turning a table round exchanges source and target everywhere. A member's key has to be derived
anew, because its owner and its descriptor are named in the other naming now: the owner follows
its class or the classes around it, the descriptor follows exact class renames. Keys that are no
member keys are left out. Exclusions name packages of the old source and are dropped.
-/

set_option autoImplicit false

namespace Renaming

namespace Table

/-- A member key in the target naming of a table, with the member's new name in it. -/
def targetMember (t : Table) (k : MemberKey) (target : Text) : MemberKey where
  owner := t.mapNested k.owner
  name := target
  descriptor := k.descriptor.map t.renameDescriptor

/-- Adds the opposite of the rename of a field. -/
def addReversedField (t r : Table) (p : Text × Text) : Table :=
  match MemberKey.parse p.1 with
  | .ok k => r.addField (t.targetMember k p.2).format k.name
  | .error _ => r

/-- Adds the opposite of the rename of a method. -/
def addReversedMethod (t r : Table) (p : Text × Text) : Table :=
  match MemberKey.parseMethod p.1 with
  | .ok k => r.addMethod (t.targetMember k p.2).format k.name
  | .error _ => r

/-- The table of the opposite step. Where several symbols are renamed to one, the one that came last
is left. Entries are turned round one by one and do not depend on the maps. -/
def reverse (t : Table) : Table :=
  let r := t.packages.toList.foldl (fun r p => r.addPackage p.2 p.1) empty
  let r := t.classes.toList.foldl (fun r p => r.addClass p.2 p.1 .null) r
  let r := t.fields.toList.foldl t.addReversedField r
  let r := t.methods.toList.foldl t.addReversedMethod r
  t.entries.values.foldl (fun r e => r.addEntry e.reversed) r

end Table

end Renaming
