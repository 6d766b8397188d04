import Renaming.Table.Entry

/-!
# `Table/Basic` — a renaming table and what is put into it

A table holds the renames of one step from a source to a target naming: packages, classes, fields
and methods, one entry per symbol, and the package prefixes it leaves alone. It is filled one
rename at a time; filling an old table again gives a new one and leaves the old as it was.

Entries are found from both sides. The map `entries` is keyed by the target; the way from the
source (`bySource`) follows from it, in the order of the entries, with the last one winning. A
field with a signature is found under its name and under its name with the signature.
-/

set_option autoImplicit false

namespace Renaming

/-- The renames of one step from a source to a target naming. -/
structure Table where
  packages : OrderedMap Text Text
  classes : OrderedMap Text Text
  fields : OrderedMap Text Text
  methods : OrderedMap Text Text
  /-- Entries by kind and target key. -/
  entries : OrderedMap (SymbolKind × Text) Entry
  /-- Prefixes of class names that are left alone. -/
  excluded : List Text

/-- The new names of the members of a kind, by their keys. -/
def MemberKind.names : MemberKind → Table → OrderedMap Text Text
  | field => Table.fields
  | method => Table.methods

namespace Table

def empty : Table := ⟨.empty, .empty, .empty, .empty, .empty, []⟩

instance : EmptyCollection Table := ⟨empty⟩

instance : Inhabited Table := ⟨empty⟩

/-! ## Filling -/

/-- Adds the rename of a package. Both names are brought to their one form first, so a package has
one rename however it is spelt. -/
def addPackage (t : Table) (source target : Text) : Table :=
  { t with packages := t.packages.insert (Package.canonical source) (Package.canonical target) }

/-- Adds an entry under its target, where it takes the place of the one that is there. So of several
symbols with one target only the last has an entry. -/
def addEntry (t : Table) (e : Entry) : Table :=
  { t with entries := t.entries.insert (e.kind, e.targetKey) e }

/-- Adds the rename of a class together with its entry. -/
def addClass (t : Table) (source target : Text) (comment : Datum) : Table :=
  { t with classes := t.classes.insert source target }.addEntry (.ofClass source target comment)

def addField (t : Table) (key target : Text) : Table :=
  { t with fields := t.fields.insert key target }

def addMethod (t : Table) (key target : Text) : Table :=
  { t with methods := t.methods.insert key target }

def addMember (t : Table) (kind : MemberKind) (key target : Text) : Table :=
  match kind with
  | .field => t.addField key target
  | .method => t.addMethod key target

/-- Adds prefixes of class names that are left alone, as they are. -/
def excludePrefixes (t : Table) (prefixes : List Text) : Table :=
  { t with excluded := prefixes.foldl (fun l p => if p ∈ l then l else l ++ [p]) t.excluded }

/-- Leaves a package alone from now on. The root package cannot be left alone. -/
def exclude (t : Table) (package : Text) : Table :=
  let p := Package.canonical package
  if p = Package.root then t else t.excludePrefixes [p]

/-! ## Entries by their source -/

/-- Entries by kind and source key. -/
abbrev SourceIndex := OrderedMap (SymbolKind × Text) Entry

/-- The keys under which an entry is found from its source. -/
def sourceKeys (e : Entry) : List (SymbolKind × Text) :=
  (e.kind, e.sourceKey) ::
    match e with
    | .ofMember .field s _ _ =>
      s.signature.toList.map fun d => (.ofField, e.sourceKey ++ ' ' :: d.written)
    | _ => []

/-- Entries by kind and source key, in the order of the entries. -/
def bySource (t : Table) : SourceIndex :=
  t.entries.values.foldl (fun m e => (sourceKeys e).foldl (fun m k => m.insert k e) m) .empty

/-! ## Sameness -/

/-- Whether two tables hold the same renames, in any order. -/
def sameRenames (a b : Table) : Bool :=
  a.packages.sameBy (· == ·) b.packages && a.classes.sameBy (· == ·) b.classes &&
    a.fields.sameBy (· == ·) b.fields && a.methods.sameBy (· == ·) b.methods

/-- Whether two tables hold the same entries, in any order, none where comparing them has no
end. -/
def sameEntries? (a b : Table) : Option Bool :=
  if a.entries.size ≠ b.entries.size then some false
  else
    b.entries.toList.allM fun p =>
      match a.entries.get? p.1 with
      | some e => e.same? p.2
      | none => some false

/-- Whether two tables hold the same renames and entries, in any order, none where comparing them
has no end. Exclusions do not count. -/
def same? (a b : Table) : Option Bool :=
  if a.sameRenames b then a.sameEntries? b else some false

end Table

end Renaming
