import Renaming.Assembly.Line
import Renaming.Assembly.Pattern
import Renaming.Table.Lookup

/-!
# `Assembly/Pass` — the four passes over a line

The first two passes rename the definition that a line may hold: its name by the keys of the
declared class, and the classes in its signature by their own renames. The third renames the owner
and the name in each reference, the fourth the classes in the types that are left. A pass touches
a shape only if no part of it lies in a literal or was replaced by an earlier pass.
-/

set_option autoImplicit false

namespace Renaming

namespace Assembly

/-- A replacement of the `length` characters at a place. -/
def editAt (place length : Nat) (replacement : Text) : Edit := ⟨⟨place, place + length⟩, replacement⟩

/-- The renames of the classes in a text that stands at a place, where `f` gives another name. -/
def typeEdits (f : Text → Text) (place : Nat) (t : Text) : List Edit :=
  (scan type? t).filterMap fun (i, name, _) =>
    if f name = name then none else some (editAt (place + i + 1) name.length (f name))

/-- The edits for the field that a line defines in class `owner`. -/
def FieldDefinition.edits (t : Table) (owner : Text) (d : FieldDefinition) : List Edit :=
  editAt d.place d.name.length (t.mapField owner d.name (some d.type)) ::
    typeEdits t.mapClassExact d.typePlace d.type

/-- The edits for the method that a line defines in class `owner`. -/
def MethodDefinition.edits (t : Table) (owner : Text) (d : MethodDefinition) : List Edit :=
  editAt d.place d.name.length (t.mapMethod owner d.name (some d.descriptor)) ::
    typeEdits t.mapClassExact d.parametersPlace d.parameters ++
    typeEdits t.mapClassExact d.resultPlace d.result

/-- The new name of the member that a reference is about. Fields go by their name alone. -/
def mapReference (t : Table) (r : Reference) : Text :=
  match r.descriptor with
  | some d => t.mapMethod r.owner r.name (some d)
  | none => t.mapField r.owner r.name none

/-- The edits for a reference at a place: its owner behind the first letter, and its name behind the
arrow. Both are made even where they change nothing, and are protected from then on. -/
def referenceEdits (t : Table) (place : Nat) (r : Reference) : List Edit :=
  [editAt (place + 1) r.owner.length (t.mapClass r.owner),
    editAt (place + r.owner.length + 4) r.name.length (mapReference t r)]

/-! ## The edits of a pass

A pass is told by its edits, which depend on the text of the line and on the parts of it that may
be touched. -/

def fieldPassEdits (t : Table) (owner text : Text) (isFree : Span → Bool) : List Edit :=
  match fieldDefinition? text with
  | none => []
  | some d => if isFree ⟨0, d.stop⟩ then d.edits t owner else []

def methodPassEdits (t : Table) (owner text : Text) (isFree : Span → Bool) : List Edit :=
  match methodDefinition? text with
  | none => []
  | some d => if isFree ⟨0, d.stop⟩ then d.edits t owner else []

def referencePassEdits (t : Table) (text : Text) (isFree : Span → Bool) : List Edit :=
  (scan reference? text).flatMap fun (i, r, n) =>
    if isFree ⟨i, i + n⟩ then referenceEdits t i r else []

def typePassEdits (t : Table) (text : Text) (isFree : Span → Bool) : List Edit :=
  (scan type? text).filterMap fun (i, name, n) =>
    if isFree ⟨i, i + n⟩ && t.mapClass name != name then
      some (editAt (i + 1) name.length (t.mapClass name))
    else none

/-! ## The passes -/

/-- Renames the field that a line defines in class `owner`. -/
def fieldPass (t : Table) (owner : Text) (l : Line) : Line :=
  l.edit (fieldPassEdits t owner l.text l.isFree)

/-- Renames the method that a line defines in class `owner`. -/
def methodPass (t : Table) (owner : Text) (l : Line) : Line :=
  l.edit (methodPassEdits t owner l.text l.isFree)

section Definition

variable {t : Table} {owner : Text} {l : Line}

theorem fieldPass_of_none (h : fieldDefinition? l.text = none) : fieldPass t owner l = l := by
  rw [fieldPass, fieldPassEdits, h, Line.edit_nil]

theorem fieldPass_of_some {d : FieldDefinition} (h : fieldDefinition? l.text = some d) :
    fieldPass t owner l = if l.isFree ⟨0, d.stop⟩ then l.edit (d.edits t owner) else l := by
  rw [fieldPass, fieldPassEdits, h, apply_ite l.edit, Line.edit_nil]

theorem methodPass_of_none (h : methodDefinition? l.text = none) : methodPass t owner l = l := by
  rw [methodPass, methodPassEdits, h, Line.edit_nil]

theorem methodPass_of_some {d : MethodDefinition} (h : methodDefinition? l.text = some d) :
    methodPass t owner l = if l.isFree ⟨0, d.stop⟩ then l.edit (d.edits t owner) else l := by
  rw [methodPass, methodPassEdits, h, apply_ite l.edit, Line.edit_nil]

/-- The passes over definitions leave a line alone that defines nothing. -/
theorem methodPass_fieldPass_of_none {code : Text} (hf : fieldDefinition? code = none)
    (hm : methodDefinition? code = none) :
    methodPass t owner (fieldPass t owner (.ofText code)) = .ofText code := by
  rw [fieldPass_of_none (by rwa [Line.text_ofText]), methodPass_of_none (by rwa [Line.text_ofText])]

end Definition

/-- Renames the members that a line refers to, together with their owners. The types in the
signature of a method are left for the last pass. -/
def referencePass (t : Table) (l : Line) : Line :=
  l.edit (referencePassEdits t l.text l.isFree)

/-- Renames the classes in the types of a line: all that no literal holds and no earlier pass has
replaced, whatever stands around them. -/
def typePass (t : Table) (l : Line) : Line :=
  l.edit (typePassEdits t l.text l.isFree)

/-- All passes over the code of a line, in order. What one of them has replaced the later ones find
in the text and do not touch. -/
def renameLine (t : Table) (owner code : Text) : Line :=
  typePass t (referencePass t (methodPass t owner (fieldPass t owner (.ofText code))))

/-- The passes never change what the line said at first. -/
@[simp] theorem source_renameLine (t : Table) (owner code : Text) :
    (renameLine t owner code).source = code := by
  simp [renameLine, typePass, referencePass, methodPass, fieldPass]

end Assembly

end Renaming
