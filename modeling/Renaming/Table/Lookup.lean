import Renaming.Table.Basic

/-!
# `Table/Lookup` — questions to a table

What is the new name of this class, field or method, how does this descriptor read afterwards, and
which entry belongs to this symbol? A class is looked up by its own rename, then by the classes
around it, then by the longest package prefix; members are looked up by their key. Whatever lies
in an excluded package keeps its name, and constructors always do.
-/

set_option autoImplicit false

namespace Renaming

namespace Table

/-- Whether a class lies in an excluded package. -/
def isExcluded (t : Table) (name : Text) : Bool := t.excluded.any fun p => Text.startsWith p name

/-- A prefix put before a name. The root package adds nothing. -/
def placeIn (package name : Text) : Text := if package = Package.root then name else package ++ name

/-- The longest key of a list of packages that is a prefix of a name, with its value. -/
def longestPrefix? (name : Text) : List (Text × Text) → Option (Text × Text)
  | [] => none
  | p :: r =>
    match longestPrefix? name r with
    | some q =>
      if p.1 ≠ Package.root ∧ Text.startsWith p.1 name ∧ q.1.length ≤ p.1.length then some p
      else some q
    | none => if p.1 ≠ Package.root ∧ Text.startsWith p.1 name then some p else none

/-- The class moved with its package: the longest one that the table renames. A class without
package moves with the root, and a class in a package never does. -/
def relocate (t : Table) (name : Text) : Text :=
  if '/' ∈ name then
    match longestPrefix? name t.packages.toList with
    | some (source, target) => placeIn target (name.drop source.length)
    | none => name
  else
    match t.packages.get? Package.root with
    | some target => placeIn target name
    | none => name

/-- The class by its own rename or that of an enclosing class. -/
def mapNested (t : Table) (name : Text) : Text := resolveNested t.classes.get? name

/-- The new name of a class: by its own rename, or else by that of the nearest class around it that
has one, with the rest of the name behind. A name that this leaves as it is moves with its package.
An excluded class keeps its name, whatever is said about it. -/
def mapClass (t : Table) (name : Text) : Text :=
  if t.isExcluded name then name
  else
    let mapped := t.mapNested name
    if mapped = name then t.relocate name else mapped

/-- The new name of a class by its own rename only. Signatures of definitions are renamed by it, so
they do not follow an enclosing class or a package. -/
def mapClassExact (t : Table) (name : Text) : Text :=
  if t.isExcluded name then name else t.classes.getD name name

/-- The new name of a field by its key with the descriptor, then by its key without. Exclusions do
not count here, as they do not when two steps are put together. -/
def findField? (t : Table) (owner name : Text) (descriptor : Option Text) : Option Text :=
  match descriptor.bind fun d => t.fields.get? (qualifiedKey owner name d) with
  | some mapped => some mapped
  | none => t.fields.get? (bareKey owner name)

/-- The new name of a field. The key with the descriptor wins over the key by name alone, and a
field that has neither, or whose owner is excluded, keeps its name. -/
def mapField (t : Table) (owner name : Text) (descriptor : Option Text) : Text :=
  if t.isExcluded owner then name else (t.findField? owner name descriptor).getD name

/-- The new name of a method, which goes by its descriptor; without one only a key without one
matches. Constructors keep their names, and so does what belongs to an excluded owner. -/
def mapMethod (t : Table) (owner name : Text) (descriptor : Option Text) : Text :=
  if isConstructor name || t.isExcluded owner then name
  else t.methods.getD (MemberKey.mk owner name descriptor).format name

/-- The descriptor with every class that has a rename of its own renamed, outside excluded
packages. -/
def mapDescriptor (t : Table) (d : Text) : Text := Descriptor.rename t.mapClassExact d

/-- The class by its own rename, whether excluded or not. -/
def renameClass (t : Table) (name : Text) : Text := t.classes.getD name name

/-- The descriptor with every class that has a rename of its own renamed, excluded or not. -/
def renameDescriptor (t : Table) (d : Text) : Text := Descriptor.rename t.renameClass d

def classEntry? (t : Table) (target : Text) : Option Entry := t.entries.get? (.ofClass, target)

def fieldEntry? (t : Table) (owner name : Text) : Option Entry :=
  t.entries.get? (.ofField, bareKey owner name)

def methodEntry? (t : Table) (owner name : Text) (descriptor : Option Text) : Option Entry :=
  t.entries.get? (.ofMethod, qualifiedKey owner name (descriptor.getD "None".toList))

/-! ## Entries by their source -/

namespace SourceIndex

def ofClass? (x : SourceIndex) (source : Text) : Option Entry := x.get? (.ofClass, source)

/-- The entry of a field; one with the descriptor wins over one by name alone. -/
def ofField? (x : SourceIndex) (owner name : Text) (descriptor : Option Text) : Option Entry :=
  match descriptor.bind fun d => x.get? (.ofField, qualifiedKey owner name d) with
  | some e => some e
  | none => x.get? (.ofField, bareKey owner name)

def ofMethod? (x : SourceIndex) (owner name : Text) (descriptor : Option Text) : Option Entry :=
  x.get? (.ofMethod, (MemberKey.mk owner name descriptor).format)

end SourceIndex

def findClassEntry? (t : Table) (source : Text) : Option Entry := t.bySource.ofClass? source

/-- The entry of a field by its source; one with the descriptor wins over one by name alone. -/
def findFieldEntry? (t : Table) (owner name : Text) (descriptor : Option Text) : Option Entry :=
  t.bySource.ofField? owner name descriptor

def findMethodEntry? (t : Table) (owner name : Text) (descriptor : Option Text) : Option Entry :=
  t.bySource.ofMethod? owner name descriptor

end Table

end Renaming
