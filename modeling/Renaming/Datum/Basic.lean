import Renaming.Datum.Atom

/-!
# `Datum/Basic` — the values of a structured document

A structured mapping document may put any scalar or collection where a name, a signature or a
comment is expected, and none of them is refused on sight: names are written out as text, and
signatures and comments are kept as they are. `Datum` is the type of these values; every other
notation uses `null` and `text` alone.

A collection may stand in several places of its document and even inside itself, so a document is
no tree. Its collections are kept in a `Store` and numbered, and a part of a collection is an atom
or the number of a collection. A value is then a part together with the store it belongs to.
-/

set_option autoImplicit false

namespace Renaming

/-- What a collection is made of. -/
inductive Part where
  | atom (a : Atom)
  /-- The collection with this number. -/
  | link (n : Nat)

instance : Inhabited Part := ⟨.atom .null⟩

/-- A collection of a document. -/
inductive Collection where
  | list (items : List Part)
  /-- A list of key and value pairs that keeps its order and its repetitions. -/
  | pairs (items : List (Part × Part))
  | mapping (entries : List (Atom × Part))
  | set (members : List Atom)

namespace Collection

/-- The collection without parts of a kind yet unknown. -/
def empty : Collection := .list []

instance : Inhabited Collection := ⟨empty⟩

/-- A list of pairs. Without pairs it is a list like any other. -/
def ofPairs : List (Part × Part) → Collection
  | [] => empty
  | p :: ps => .pairs (p :: ps)

def isEmpty : Collection → Bool
  | list items => items.isEmpty
  | pairs items => items.isEmpty
  | mapping entries => entries.isEmpty
  | set members => members.isEmpty

end Collection

/-- The collections of a document by their numbers. -/
structure Store where
  /-- The number of the document itself, by which collections of two documents are told apart. -/
  document : Nat
  collections : Array Collection

namespace Store

def size (s : Store) : Nat := s.collections.size

def get (s : Store) (n : Nat) : Collection := s.collections[n]?.getD .empty

end Store

/-- A value of a structured document. -/
inductive Datum where
  | atom (a : Atom)
  /-- The collection with number `n` of a store. -/
  | collection (s : Store) (n : Nat)

def Store.datum (s : Store) : Part → Datum
  | .atom a => .atom a
  | .link n => .collection s n

namespace Datum

/-- Nothing. -/
@[match_pattern] def null : Datum := atom .null

/-- A text. -/
@[match_pattern] def text (t : Text) : Datum := atom (.text t)

instance : Inhabited Datum := ⟨null⟩

def ofText? : Option Text → Datum
  | none => null
  | some t => text t

/-- Whether something is there: not null, not false, not zero and not empty. -/
def isPresent : Datum → Bool
  | atom a => a.isPresent
  | collection s n => !(s.get n).isEmpty

abbrev Fields := List (Atom × Datum)

/-- The fields of a mapping, none of another value. -/
def fields? : Datum → Option Fields
  | atom _ => none
  | collection s n =>
    match s.get n with
    | .mapping entries => some (entries.map fun e => (e.1, s.datum e.2))
    | _ => none

/-- The value that fields have under a name, `null` without one. -/
def field (name : String) (fields : Fields) : Datum :=
  (Atom.get? (.text name.toList) fields).getD null

end Datum

end Renaming
