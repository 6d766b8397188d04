import Renaming.Table.Lookup

/-!
# `Table/Compose` — two steps in one, and chains of steps

The composition of two tables renames what the first one renames and carries each symbol on
through the second. Which members it has is decided by the first table alone; packages that only
the second one knows are added. Comments of both steps are joined, and the few comments that
cannot be joined are the only reason to refuse a composition (`composed`). A chain is composed from
left to right; a chain of one step is that step.
-/

set_option autoImplicit false

namespace Renaming

/-- Two comments in one: both with a bar between them when they differ, or whichever says
anything. -/
def mergeComments (first second : Datum) : Datum :=
  if first.isPresent && second.isPresent && (first.differ? second).getD true then
    .text (first.written ++ " | ".toList ++ second.written)
  else if first.isPresent then first
  else if second.isPresent then second
  else .null

/-- Refuses two comments that cannot be made one, because comparing them has no end or one of them
is too long to be written. -/
def checkComments (first second : Datum) : Except Fault Unit :=
  if first.isPresent && second.isPresent then
    match first.differ? second with
    | none => .error (.value .endless)
    | some true =>
      if first.isWritable && second.isWritable then .ok () else .error (.value .tooManyDigits)
    | some false => .ok ()
  else .ok ()

namespace Table

/-- The comment of an entry that may be missing. -/
def commentOf (e : Option Entry) : Datum := (e.map Entry.comment).getD .null

/-- Adds the packages of both steps: those of the first, carried on through the second, and then
those of the second that the first neither renames nor renames others to. -/
def composePackages (first second r : Table) : Table :=
  let r := first.packages.toList.foldl
    (fun r p => r.addPackage p.1 (second.packages.getD p.2 p.2)) r
  second.packages.toList.foldl (fun r p =>
    if p.1 ∈ first.packages.values ∨ p.1 ∈ first.packages.keys then r else r.addPackage p.1 p.2) r

/-- The comments that both steps have for a class. The entries of both steps are at hand by their
sources, here and below those of the first in `i` and those of the second in `j`. -/
def classComments (i j : SourceIndex) (source middle : Text) : Datum × Datum :=
  (commentOf (i.ofClass? source), commentOf (j.ofClass? middle))

/-- Adds the classes of the first step, carried on through the second. -/
def composeClasses (first second : Table) (i j : SourceIndex) (r : Table) : Table :=
  first.classes.toList.foldl (fun r p =>
    let comments := classComments i j p.1 p.2
    r.addClass p.1 (second.mapNested p.2) (mergeComments comments.1 comments.2)) r

/-- The signature of a field of the first step: that of its key, or else that of its entry. -/
def fieldSignature (i : SourceIndex) (k : MemberKey) : Option Signature :=
  match k.descriptor with
  | some d => some (.text d)
  | none => (i.ofField? k.owner k.name none).bind fun
    | .ofMember _ s _ _ => s.signature
    | .ofClass .. => none

/-- The comments that both steps have for a field. -/
def fieldComments (first : Table) (i j : SourceIndex) (k : MemberKey) (middle : Text) :
    Datum × Datum :=
  let descriptor := (fieldSignature i k).map (Signature.rename first.renameClass)
  (commentOf (i.ofField? k.owner k.name k.descriptor),
    commentOf (j.ofField? (first.mapNested k.owner) middle descriptor))

/-- A field of the first step on its way through both: the entry of the result. -/
def composedField (first second : Table) (i j : SourceIndex) (k : MemberKey) (middle : Text) :
    Entry :=
  let signature := fieldSignature i k
  let owner := first.mapNested k.owner
  let descriptor := signature.map (Signature.rename first.renameClass)
  let target := (second.findField? owner middle descriptor).getD middle
  let comments := fieldComments first i j k middle
  .ofMember .field ⟨k.owner, k.name, signature⟩
    ⟨second.mapNested owner, target, (descriptor.map second.renameDescriptor).map .text⟩
    (mergeComments comments.1 comments.2)

/-- Adds the fields of the first step, carried on through the second. What is no member key is left
out. -/
def composeFields (first second : Table) (i j : SourceIndex) (r : Table) : Table :=
  first.fields.toList.foldl (fun r p =>
    match MemberKey.parse p.1 with
    | .ok k =>
      let e := composedField first second i j k p.2
      (r.addField p.1 e.targetName).addEntry e
    | .error _ => r) r

/-- The comments that both steps have for a method. -/
def methodComments (first : Table) (i j : SourceIndex) (k : MemberKey) (middle : Text) :
    Datum × Datum :=
  let descriptor := k.descriptor.map first.renameDescriptor
  (commentOf (i.ofMethod? k.owner k.name k.descriptor),
    commentOf (j.ofMethod? (first.mapNested k.owner) middle descriptor))

/-- A method of the first step on its way through both: the entry of the result. -/
def composedMethod (first second : Table) (i j : SourceIndex) (k : MemberKey) (middle : Text) :
    Entry :=
  let owner := first.mapNested k.owner
  let descriptor := k.descriptor.map first.renameDescriptor
  let target := second.methods.getD (MemberKey.mk owner middle descriptor).format middle
  let comments := methodComments first i j k middle
  .ofMember .method (Identity.ofKey k)
    ⟨second.mapNested owner, target, (descriptor.map second.renameDescriptor).map .text⟩
    (mergeComments comments.1 comments.2)

/-- Adds the methods of the first step, carried on through the second. What is no method key is left
out. -/
def composeMethods (first second : Table) (i j : SourceIndex) (r : Table) : Table :=
  first.methods.toList.foldl (fun r p =>
    match MemberKey.parseMethod p.1 with
    | .ok k =>
      let e := composedMethod first second i j k p.2
      (r.addMethod p.1 e.targetName).addEntry e
    | .error _ => r) r

/-- The table that renames as the first and then the second does. What it renames is decided by the
first one alone, its packages apart. Only the exclusions of the first are about its source names, so
only they stay. -/
def compose (first second : Table) : Table :=
  let i := first.bySource
  let j := second.bySource
  let r := composePackages first second empty
  let r := composeClasses first second i j r
  let r := composeFields first second i j r
  let r := composeMethods first second i j r
  r.excludePrefixes first.excluded

/-- The comments of both steps that a composition makes one, in its order. -/
def commentPairs (first : Table) (i j : SourceIndex) : List (Datum × Datum) :=
  first.classes.toList.map (fun p => classComments i j p.1 p.2) ++
    first.fields.toList.filterMap (fun p =>
      match MemberKey.parse p.1 with
      | .ok k => some (fieldComments first i j k p.2)
      | .error _ => none) ++
    first.methods.toList.filterMap fun p =>
      match MemberKey.parseMethod p.1 with
      | .ok k => some (methodComments first i j k p.2)
      | .error _ => none

/-- The composition, refused when two comments cannot be made one. -/
def composed (first second : Table) : Except Fault Table := do
  (commentPairs first first.bySource second.bySource).forM fun c => checkComments c.1 c.2
  return first.compose second

/-- A chain of steps, put together from the left. A chain of one step is this very step, and there
is none without steps. -/
def chain : List Table → Except Fault Table
  | [] => .error .emptyChain
  | t :: ts => ts.foldlM composed t

end Table

end Renaming
