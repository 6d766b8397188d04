import Renaming.Document.Basic
import Renaming.Table.Lookup

/-!
# `Document/Build` — from a document to a table

A document makes a table item by item, so a signature is carried over by the classes above it and
not by those below. The same symbol may be listed again with the same new name, but not with
another.
-/

set_option autoImplicit false

namespace Renaming

namespace Document

/-- Refuses a second new name for a symbol. -/
def checkConflict (kind : SymbolKind) (renames : OrderedMap Text Text) (key target : Text) :
    Except Fault Unit :=
  match renames.get? key with
  | some previous =>
    if previous = target then .ok () else .error (.format (.conflict kind key previous target))
  | none => .ok ()

/-- The entry of a member of a class with this signature; the classes in it are renamed on the new
side. -/
def memberEntry (t : Table) (kind : MemberKind) (owners names : Text × Text)
    (signature : Option Signature) (comment : Datum) : Entry :=
  .ofMember kind ⟨owners.1, names.1, signature⟩
    ⟨owners.2, names.2, signature.map fun s => .text (s.rename t.renameClass)⟩ comment

/-- Adds a member of a class with these names. Its rename is checked before its signature. -/
def addMember (kind : MemberKind) (owners : Text × Text) (t : Table) (x : MemberItem) :
    Except Fault Table := do
  checkConflict kind.symbol (kind.names t) (x.key owners.1) x.target
  let t := t.addMember kind (x.key owners.1) x.target
  let signature ← x.signature
  return t.addEntry (memberEntry t kind owners (x.source, x.target) signature x.comment)

/-- Adds the rename of a class. The first of several equal ones counts. -/
def addClassRename (t : Table) (source target : Text) (comment : Datum) : Except Fault Table := do
  checkConflict .ofClass t.classes source target
  return if t.classes.contains source then t else t.addClass source target comment

/-- Adds a class: its rename, and then its fields and its methods in the order in which they are
listed. Their signatures are read by all classes that are known by then, this one included. -/
def addClass (t : Table) (item : ClassItem) : Except Fault Table := do
  let owners := (Descriptor.internalName item.source, Descriptor.internalName item.target)
  let t ← addClassRename t owners.1 owners.2 item.comment
  let t ← (item.members .field).fold (addMember .field owners) t
  (item.members .method).fold (addMember .method owners) t

/-- The table of a document, or the first fault that it has in the order of its items. -/
def table (d : Document) : Except Fault Table := d.fold addClass .empty

end Document

end Renaming
