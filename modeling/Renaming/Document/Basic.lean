import Renaming.Table.Entry

/-!
# `Document/Basic` — the structured document

The structured document lists classes, each of them with lists of fields and methods. It holds two
namings, and only its complete items matter here: a class or field with both its names, and a
method with both its names and a descriptor. Names may be any value, which is written out.

A field and a method differ in how they are read, and in that a method is known by its descriptor as
well. Once read they are the same kind of item, and they are put into a table in the same way.

Going through a document may come upon a value that has no meaning where it stands. Such a fault
takes the place of an item, or of a signature, and whatever precedes it counts first.
-/

set_option autoImplicit false

namespace Renaming

/-- Items in order. Going through them ends at the first fault. -/
abbrev Listing (α : Type) := List (Except Fault α)

/-- A field or method with both its names. -/
structure MemberItem where
  source : Text
  target : Text
  /-- The descriptor in writing, where the member is known by it. -/
  descriptor : Option Text
  /-- What is known of its type, or its descriptor, as a signature. -/
  signature : Except Fault (Option Signature)
  comment : Datum

/-- The key of a member of a class with this old name. -/
def MemberItem.key (owner : Text) (x : MemberItem) : Text :=
  (MemberKey.mk owner x.source x.descriptor).format

/-- A class with both its names, its fields and its methods. -/
structure ClassItem where
  source : Text
  target : Text
  comment : Datum
  fields : Listing MemberItem
  methods : Listing MemberItem

def ClassItem.members (c : ClassItem) : MemberKind → Listing MemberItem
  | .field => c.fields
  | .method => c.methods

/-- A structured document: its classes in order. Where a class could not be read there is the fault
in its place, which counts when it is come to and not before. -/
abbrev Document := Listing ClassItem

namespace Listing

/-- Goes through the items and ends at the first fault, whether an item is one or the step makes
it. -/
def fold {α β : Type} (f : β → α → Except Fault β) (b : β) (items : Listing α) : Except Fault β :=
  items.foldlM (fun b item => item >>= f b) b

end Listing

end Renaming
