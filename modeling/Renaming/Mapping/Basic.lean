import Renaming.Symbol.Descriptor
import Renaming.OrderedMap

/-!
# `Mapping/Basic` — the rows of a mapping file

Except for the structured document, every notation is a list of rows: a class with one name per
naming, and fields and methods below it. Notations differ in how many namings they hold (tiers),
and a table is made only once two of them are chosen, so what is read is kept with all its names.
A name may be missing in a tier. Descriptors use the class names of the first tier.

A class may be mentioned as the owner of a member without a row of its own; it then contributes
its members but no class rename (`declared` is false).
-/

set_option autoImplicit false

namespace Renaming

/-- A field or method with one name per tier. -/
structure MemberRow where
  names : List (Option Text)
  descriptor : Option Text
  comment : Option Text
deriving DecidableEq, Repr

/-- A class with one name per tier and its members. -/
structure ClassRow where
  names : List (Option Text)
  /-- Whether the class has a row of its own. -/
  declared : Bool
  comment : Option Text
  fields : List MemberRow
  methods : List MemberRow
deriving DecidableEq, Repr

/-- What a mapping file says, before two of its tiers are chosen. -/
structure Mapping where
  format : Format
  namespaces : List Text
  packages : List (Text × Text)
  /-- Classes by their first name. -/
  classes : OrderedMap Text ClassRow

/-- The name in a tier. An empty name counts as missing. -/
def nameAt (names : List (Option Text)) (tier : Nat) : Option Text :=
  (names[tier]?.join).bind Text.nonempty?

/-- Writes a name into a tier that has none yet. -/
def nameIfMissing (names : List (Option Text)) (tier : Nat) (name : Text) : List (Option Text) :=
  match nameAt names tier with
  | some _ => names
  | none => names.set tier (some name)

namespace Mapping

/-- The mapping without rows, which is what a reader begins with. -/
def ofNamespaces (format : Format) (namespaces : List Text) : Mapping :=
  ⟨format, namespaces, [], .empty⟩

/-- The names of the tiers of notations that hold exactly two. -/
def twoTiers : List Text := ["source".toList, "target".toList]

/-- A class that is only mentioned: it has its first name. -/
def mentioned (m : Mapping) (first : Text) : ClassRow :=
  ⟨some first :: List.replicate (m.namespaces.length - 1) none, false, none, [], []⟩

/-- The mapping with a class of this first name in it. -/
def withOwner (m : Mapping) (first : Text) : Mapping :=
  if m.classes.contains first then m
  else { m with classes := m.classes.insert first (m.mentioned first) }

/-- Changes the class of this first name, which is mentioned if it was not there. -/
def onOwner (m : Mapping) (first : Text) (f : ClassRow → ClassRow) : Mapping :=
  { m.withOwner first with classes := (m.withOwner first).classes.modify first f }

/-- Adds a class row. A comment that says nothing leaves the one that is there. -/
def declare (m : Mapping) (names : List (Option Text)) (comment : Option Text) :
    Except Fault (Mapping × Text) :=
  match names with
  | [] => .error (.value .nothingThere)
  | first :: _ =>
    match first.bind Text.nonempty? with
    | none => .error (.format .classWithoutName)
    | some name => .ok (m.onOwner name fun c =>
        { c with
          names := names
          declared := true
          comment := (comment.bind Text.nonempty?).or c.comment }, name)

def addField (m : Mapping) (owner : Text) (row : MemberRow) : Mapping :=
  m.onOwner owner fun c => { c with fields := c.fields ++ [row] }

def addMethod (m : Mapping) (owner : Text) (row : MemberRow) : Mapping :=
  m.onOwner owner fun c => { c with methods := c.methods ++ [row] }

def addPackage (m : Mapping) (source target : Text) : Mapping :=
  { m with packages := m.packages ++ [(source, target)] }

end Mapping

end Renaming
