import Renaming.Document.Basic
import Renaming.Datum.Written

/-!
# `Document/Reading` — the document that a value spells

A value spells a document when it is a mapping with a list of classes, or nothing at all. What a
document lists may be any value that can be gone through: the items of a list, the characters of a
text, the keys of a mapping. Items that are no mappings are passed over, and so are incomplete
ones; only among the methods must every item be a mapping.

Which value a text stands for is not settled here. That is the business of a `DocumentReader`,
which whoever reads documents has to bring along: it answers any value whatever, or a fault. A
statement about documents therefore speaks of the value that was read, and holds for every way in
which texts may be written.
-/

set_option autoImplicit false

namespace Renaming

/-- A way to get the value of a structured document from its text. -/
abbrev DocumentReader := Text → Except Fault Datum

/-- The reader that understands no document, for those who only have rows to read. -/
def DocumentReader.refuses : DocumentReader := fun _ => .error (.format .invalidDocument)

namespace Datum

/-- What a value lists: for every item its fields, or none if it is no mapping. A value that says
nothing lists nothing, and other values cannot be gone through. -/
def listed (d : Datum) : Except Fault (List (Option Fields)) :=
  if !d.isPresent then .ok []
  else
    match d with
    | .collection s n =>
      match s.get n with
      | .list items => .ok (items.map fun p => (s.datum p).fields?)
      | .pairs items => .ok (items.map fun _ => none)
      | .mapping entries => .ok (entries.map fun _ => none)
      | .set members => .ok (members.map fun _ => none)
    | .atom (.text t) => .ok (t.map fun _ => none)
    | .atom (.bytes bs) => .ok (bs.map fun _ => none)
    | .atom _ => .error (.value .wrongKind)

/-- The complete items of what a value lists. -/
def listing {α : Type} (read : Option Fields → Except Fault (Option α)) (d : Datum) : Listing α :=
  match d.listed with
  | .error f => [.error f]
  | .ok items =>
    items.filterMap fun item =>
      match read item with
      | .ok none => none
      | .ok (some a) => some (.ok a)
      | .error f => some (.error f)

/-- A value in writing, unless it is too long for that. -/
def inWriting (d : Datum) : Except Fault Text :=
  if d.isWritable then .ok d.written else .error (.value .tooManyDigits)

def signature (d : Datum) : Except Fault (Option Signature) :=
  match Signature.ofDatum? d with
  | .ok s => .ok s
  | .error v => .error (.value v)

/-- Both names of an item in writing, if it has them. -/
def names? (fs : Fields) : Except Fault (Option (Text × Text)) :=
  let source := field "obfuscated" fs
  let target := field "readable" fs
  if source.isPresent && target.isPresent then do
    let s ← source.inWriting
    let t ← target.inWriting
    return some (s, t)
  else .ok none

end Datum

/-- A field with both its names. It is known without its type. -/
def MemberItem.ofField? : Option Datum.Fields → Except Fault (Option MemberItem)
  | none => .ok none
  | some fs => do
    match ← Datum.names? fs with
    | none => return none
    | some (s, t) =>
      return some ⟨s, t, none, (Datum.field "type" fs).signature, Datum.field "comment" fs⟩

/-- A method with both its names and a descriptor. An item that is no mapping has no meaning here,
while among the fields it is passed over. -/
def MemberItem.ofMethod? : Option Datum.Fields → Except Fault (Option MemberItem)
  | none => .error (.value .notRecord)
  | some fs => do
    let descriptor := Datum.field "descriptor" fs
    match ← Datum.names? fs with
    | none => return none
    | some (s, t) =>
      if descriptor.isPresent then
        return some ⟨s, t, some (← descriptor.inWriting), descriptor.signature,
          Datum.field "comment" fs⟩
      else return none

/-- The member that an item in a list of this kind stands for, if it is complete. -/
def MemberItem.ofFields? : MemberKind → Option Datum.Fields → Except Fault (Option MemberItem)
  | .field => ofField?
  | .method => ofMethod?

def ClassItem.ofFields? : Option Datum.Fields → Except Fault (Option ClassItem)
  | none => .ok none
  | some fs => do
    match ← Datum.names? fs with
    | none => return none
    | some (s, t) =>
      return some ⟨s, t, Datum.field "comment" fs,
        (Datum.field "fields" fs).listing (MemberItem.ofFields? .field),
        (Datum.field "methods" fs).listing (MemberItem.ofFields? .method)⟩

namespace Document

def ofDatum (d : Datum) : Document :=
  match d, d.fields? with
  | .atom .null, _ => []
  | _, some fs => (Datum.field "classes" fs).listing ClassItem.ofFields?
  | _, none => [.error (.format .documentNotMapping)]

/-- The document that a text spells, as the reader has it. -/
def ofText (read : DocumentReader) (text : Text) : Except Fault Document := do
  return ofDatum (← read text)

end Document

end Renaming
