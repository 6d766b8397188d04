import Mathlib.Data.List.Pairwise
import Renaming.Proofs.Assembly.Definition

/-!
# `Proofs/Assembly/OneName` — a member where it is defined and where it is referred to

A definition is renamed by one pass and a reference by another, in lines that need not be of one
file, so that both get one name is a property of the look-ups alone once it is known which look-up
each of them is answered by. That is shown here for every table (`written_fieldDefinition`,
`written_methodDefinition`, `written_reference`), without any condition on the names it holds: what
one pass has replaced, the later ones leave as it is (`Edited.subset`), however the line reads by
then.

A method is looked up with its descriptor in both places. A field is looked up with its type where
it is defined and without it where it is referred to, so it keeps one name exactly if a rename under
the key with the type, where there is one, says what the rename by name says (`one_name_iff`).
-/

set_option autoImplicit false

namespace Renaming

namespace Assembly

namespace Line

/-! ## Replaced names stay -/

theorem editsFrom_append (k : Nat) (A B : List Piece) :
    editsFrom k (A ++ B) = editsFrom k A ++ editsFrom (k + (sourceOf A).length) B := by
  induction A generalizing k with
  | nil => rfl
  | cons p A ih =>
    cases p with
    | kept c =>
      rw [List.cons_append, editsFrom, editsFrom, ih, sourceOf_kept, List.length_cons]
      congr 2
      omega
    | replaced old new =>
      rw [List.cons_append, editsFrom, editsFrom, ih, sourceOf_replaced, List.length_append,
        List.cons_append, Nat.add_assoc]

@[simp] theorem editsFrom_map_kept (k : Nat) (w : Text) : editsFrom k (w.map .kept) = [] := by
  induction w generalizing k with
  | nil => rfl
  | cons c w ih => exact ih (k + 1)

section Edited

variable {P : PieceProperty} {i k : Nat} {z : Zone} {es : List Edit} {ps ps' : List Piece}

/-- What was replaced before edits of kept characters is replaced by the same behind them. -/
theorem Edited.subset (h : Edited P i k z es ps ps') {e : Edit} (he : e ∈ editsFrom k ps) :
    e ∈ editsFrom k ps' := by
  induction h with
  | done => exact he
  | @edit i k z A B B' c w e' es hw hspan hP rest ih =>
    -- The edit takes kept characters, so what was replaced lies in front of them or behind.
    rw [editsFrom_append, List.mem_append] at he ⊢
    refine he.imp_right fun he => ?_
    rw [editsFrom, editsFrom_append, editsFrom_map_kept, List.nil_append, sourceOf_map_kept] at he
    rw [editsFrom, editsFrom]
    exact List.mem_cons_of_mem _ (ih he)

/-- Edits of a line in which nothing was replaced yet are what is replaced behind them. Text and
source agree there, so that a place in the one is the place in the other. -/
theorem Edited.mem_editsFrom (h : Edited P i k z es ps ps') (hik : i = k) {v : Text}
    (hps : ps = v.map .kept) {e : Edit} (he : e ∈ es) : e ∈ editsFrom k ps' := by
  induction h generalizing v with
  | done => cases he
  | @edit i k z A B B' c w e' es hw hspan hP rest ih =>
    subst hik
    obtain ⟨a, u, rfl, rfl, hu⟩ := List.map_eq_append_iff.1 hps.symm
    obtain ⟨d, u, rfl, -, hu⟩ := List.map_eq_cons_iff.1 hu
    obtain ⟨x, b, rfl, -, rfl⟩ := List.map_eq_append_iff.1 hu
    rw [editsFrom_append, editsFrom_map_kept, List.nil_append, sourceOf_map_kept, editsFrom,
      editsFrom]
    rw [textOf_map_kept] at hspan
    rw [sourceOf_map_kept] at ih
    rcases List.mem_cons.1 he with rfl | he
    · refine List.mem_cons.2 (.inl ?_)
      obtain ⟨span, new⟩ := e
      subst hspan
      rfl
    · exact List.mem_cons_of_mem _ (ih (by rw [hspan]) rfl he)

end Edited

/-- The property that all replaced pieces have. -/
abbrev anyPiece : PieceProperty := fun _ _ _ _ => True

theorem placed_of_part {ps A B : List Piece} {u name v new : Text} {c : Char}
    (hps : ps = A ++ ((u ++ c :: (name ++ v)).map .kept ++ B)) (hname : name ≠ []) :
    Placed anyPiece ps (editAt ((textOf A).length + u.length + 1) name.length new) :=
  ⟨A ++ u.map .kept, c, name, v.map .kept ++ B, by simp [hps], hname,
    by simp [editAt, Nat.add_assoc], trivial⟩

end Line

open Line

section Passes

variable (t : Table) (l : Line)

/-! ## The last two passes -/

theorem edited_typePass :
    Edited anyPiece 0 0 .code (typePassEdits t l.text l.isFree) l.pieces
      (typePass t l).pieces := by
  refine edited_edit (pairwise_typePass t l) fun e he => ?_
  obtain ⟨A, B, name, hps, -, -, hname, rfl⟩ := exists_part_of_mem_typePass he
  exact placed_of_part (u := []) hps hname.ne_nil

theorem edited_referencePass :
    Edited anyPiece 0 0 .code (referencePassEdits t l.text l.isFree) l.pieces
      (referencePass t l).pieces := by
  refine edited_edit (pairwise_referencePass t l) fun e he => ?_
  obtain ⟨A, B, r, signature, hps, -, -, hr, he⟩ := exists_part_of_mem_referencePass he
  simp only [referenceEdits, List.mem_cons, List.not_mem_nil, or_false] at he
  rcases he with rfl | rfl
  · exact placed_of_part (u := []) hps hr.owner.ne_nil
  · rw [r.text_eq] at hps
    have hplaced := @placed_of_part _ _ _ _ _ _ (mapReference t r) _ hps hr.name.ne_nil
    have hlen : ('L' :: (r.owner ++ [';', '-'])).length = r.owner.length + 3 := by simp
    rw [hlen] at hplaced
    exact hplaced

variable {t l}

/-- What the passes over definitions have replaced stays replaced. -/
theorem mem_editsFrom_passes {e : Edit} (he : e ∈ editsFrom 0 l.pieces) :
    e ∈ editsFrom 0 (typePass t (referencePass t l)).pieces := by
  exact (edited_typePass t _).subset ((edited_referencePass t l).subset he)

end Passes

/-! ## What is written -/

/-- In a line of a file of class `owner`, the name `old` that stands at a place of the code is
replaced by `new`. -/
def Written (t : Table) (owner code : Text) (place : Nat) (old new : Text) : Prop :=
  editAt place old.length new ∈ editsFrom 0 (renameLine t owner code).pieces

variable {t : Table} {owner code : Text}

/-! ## Definitions -/

theorem mem_editsFrom_definition {lead name tail new : Text} {c x : Char} {es : List Edit}
    (hes : ∀ e ∈ es, (lead ++ c :: (name ++ [x])).length < e.span.start) :
    editAt (lead ++ [c]).length name.length new ∈
      editsFrom 0 ((ofText (lead ++ c :: (name ++ x :: tail))).edit
        (editAt (lead ++ [c]).length name.length new :: es)).pieces := by
  rw [pieces_edit_definition hes, editsFrom_append, editsFrom_append, editsFrom_map_kept]
  simp [editsFrom]

theorem fieldPass_of_definition {d : FieldDefinition} (hd : fieldDefinition? code = some d)
    (hfree : (ofText code).isFree ⟨0, d.stop⟩ = true) :
    editAt d.place d.name.length (t.mapField owner d.name (some d.type)) ∈
      editsFrom 0 (fieldPass t owner (.ofText code)).pieces := by
  obtain ⟨lead, c, rest, hcode, hplace, htype, -⟩ := exists_lead_of_fieldDefinition? hd
  rw [fieldPass_of_some (by rwa [text_ofText]), if_pos hfree, FieldDefinition.edits]
  rw [hplace, hcode]
  exact mem_editsFrom_definition fun e he => by
    rw [← htype]
    exact (bounds_of_mem_typeEdits he).1

theorem methodPass_of_definition {d : MethodDefinition} (hd : methodDefinition? code = some d)
    (hfree : (ofText code).isFree ⟨0, d.stop⟩ = true) :
    editAt d.place d.name.length (t.mapMethod owner d.name (some d.descriptor)) ∈
      editsFrom 0 (methodPass t owner (.ofText code)).pieces := by
  obtain ⟨lead, c, rest, hcode, hplace, hparameters, -⟩ := exists_lead_of_methodDefinition? hd
  rw [methodPass_of_some (by rwa [text_ofText]), if_pos hfree, MethodDefinition.edits]
  rw [hplace, hcode]
  refine mem_editsFrom_definition fun e he => ?_
  rw [← hparameters]
  exact d.parametersPlace_lt he

/-- A line that defines a field defines no method. -/
theorem methodDefinition?_eq_none {d : FieldDefinition} (hd : fieldDefinition? code = some d) :
    methodDefinition? code = none := by
  obtain ⟨indent, gap, c, rest, hcode, -, hindent, -⟩ := fieldDefinition?_eq_some hd
  rw [hcode]
  exact methodDefinition?_field indent gap _ c hindent

/-- A defined field gets the name that its key with the type asks for. -/
theorem written_fieldDefinition (t : Table) (owner : Text) {d : FieldDefinition}
    (hd : fieldDefinition? code = some d) (hfree : (ofText code).isFree ⟨0, d.stop⟩ = true) :
    Written t owner code d.place d.name (t.mapField owner d.name (some d.type)) := by
  refine mem_editsFrom_passes ?_
  have hnone : methodDefinition? (fieldPass t owner (.ofText code)).text = none := by
    rcases fieldPass_eq_or t owner code with h | h
    · rw [h, text_ofText]
      exact methodDefinition?_eq_none hd
    · exact h
  rw [methodPass_of_none hnone]
  exact fieldPass_of_definition hd hfree

/-- A defined method gets the name that its key asks for. -/
theorem written_methodDefinition (t : Table) (owner : Text) {d : MethodDefinition}
    (hd : methodDefinition? code = some d) (hfree : (ofText code).isFree ⟨0, d.stop⟩ = true) :
    Written t owner code d.place d.name (t.mapMethod owner d.name (some d.descriptor)) := by
  refine mem_editsFrom_passes ?_
  have hnone : fieldDefinition? code = none := by
    cases hfield : fieldDefinition? code with
    | none => rfl
    | some f =>
      rw [methodDefinition?_eq_none hfield] at hd
      cases hd
  rw [fieldPass_of_none (by rwa [text_ofText])]
  exact methodPass_of_definition hd hfree

/-! ## References -/

/-- A reference in code that defines nothing, as a scan finds it. -/
structure Refers (code : Text) (place : Nat) (r : Reference) : Prop where
  field : fieldDefinition? code = none
  method : methodDefinition? code = none
  found : ∃ n, (place, r, n) ∈ scan reference? code ∧ (ofText code).isFree ⟨place, place + n⟩ = true

/-- A member that is referred to gets the name that the reference asks for. -/
theorem written_reference (t : Table) (owner : Text) {place : Nat} {r : Reference}
    (hr : Refers code place r) :
    Written t owner code (place + r.owner.length + 4) r.name (mapReference t r) := by
  obtain ⟨n, hmem, hfree⟩ := hr.found
  rw [Written, renameLine, methodPass_fieldPass_of_none hr.field hr.method]
  refine (edited_typePass t _).subset
    ((edited_referencePass t (.ofText code)).mem_editsFrom rfl rfl ?_)
  rw [referencePassEdits, List.mem_flatMap]
  refine ⟨(place, r, n), by rw [text_ofText]; exact hmem, ?_⟩
  dsimp only
  rw [if_pos hfree]
  exact List.mem_cons_of_mem _ List.mem_cons_self

/-! ## One name -/

/-- With and without its type a field has one new name, unless the rename under the key with the
type says otherwise. -/
theorem mapField_eq_iff (t : Table) (owner name type : Text) :
    t.mapField owner name (some type) = t.mapField owner name none ↔
      t.isExcluded owner = true ∨
        ∀ new, t.fields.get? (qualifiedKey owner name type) = some new →
          new = t.fields.getD (bareKey owner name) name := by
  unfold Table.mapField
  by_cases hx : t.isExcluded owner = true
  · rw [if_pos hx, if_pos hx]
    exact iff_of_true rfl (.inl hx)
  · rw [if_neg hx, if_neg hx, or_iff_right hx]
    simp only [Table.findField?, Option.bind_some, Option.bind_none, OrderedMap.getD]
    cases t.fields.get? (qualifiedKey owner name type) with
    | none => simp
    | some new => simp

/-- **A method gets one new name where it is defined and where it is referred to, whatever the
table, and a field does exactly if no key with its type says otherwise.** -/
theorem one_name_iff (t : Table) (other : Text) {code line : Text} {place : Nat} {r : Reference}
    (hr : Refers line place r) :
    (∀ d, methodDefinition? code = some d → (ofText code).isFree ⟨0, d.stop⟩ = true →
      d.name = r.name → r.descriptor = some d.descriptor →
      ∃ new, Written t r.owner code d.place d.name new ∧
        Written t other line (place + r.owner.length + 4) r.name new) ∧
    (∀ d, fieldDefinition? code = some d → (ofText code).isFree ⟨0, d.stop⟩ = true →
      d.name = r.name → r.descriptor = none →
      ∃ new new', Written t r.owner code d.place d.name new ∧
        Written t other line (place + r.owner.length + 4) r.name new' ∧
        (new = new' ↔ t.isExcluded r.owner = true ∨
          ∀ typed, t.fields.get? (qualifiedKey r.owner r.name d.type) = some typed →
            typed = t.fields.getD (bareKey r.owner r.name) r.name)) := by
  have href := written_reference t other hr
  constructor
  · intro d hd hfree hname hdescriptor
    refine ⟨_, written_methodDefinition t r.owner hd hfree, ?_⟩
    rw [mapReference, hdescriptor] at href
    rw [hname]
    exact href
  · intro d hd hfree hname hdescriptor
    refine ⟨_, _, written_fieldDefinition t r.owner hd hfree, href, ?_⟩
    rw [mapReference, hdescriptor, hname]
    exact mapField_eq_iff t r.owner r.name d.type

/-- A field that is renamed with its type and by name alone, to one and the same name. -/
theorem one_name_iff_agreeing :
    let t := (Table.empty.addField "a/b/f I".toList "g".toList).addField "a/b/f".toList "g".toList
    Refers "iget v0, p0, La/b;->f:I".toList 13 ⟨"a/b".toList, "f".toList, none⟩ ∧
      ∃ new new', Written t "a/b".toList ".field f:I".toList 7 "f".toList new ∧
        Written t "c".toList "iget v0, p0, La/b;->f:I".toList 20 "f".toList new' ∧ new = new' := by
  intro t
  have hr : Refers "iget v0, p0, La/b;->f:I".toList 13 ⟨"a/b".toList, "f".toList, none⟩ :=
    ⟨by decide +kernel, by decide +kernel, 10, by decide +kernel⟩
  have hd : fieldDefinition? ".field f:I".toList = some ⟨7, "f".toList, "I".toList⟩ := by
    decide +kernel
  obtain ⟨new, new', hdefined, hreferred, hsame⟩ :=
    (one_name_iff t "c".toList hr).2 _ hd (by decide +kernel) rfl rfl
  exact ⟨hr, new, new', hdefined, hreferred, hsame.2 (by decide +kernel)⟩

/-- A field that is renamed with its type keeps its old name in the references. -/
theorem rename_typed_field :
    (rename (Table.empty.addField "a/b/f I".toList "g".toList)
      ".class La/b;\n.field f:I\n    iget v0, p0, La/b;->f:I\n".toList).text =
        ".class La/b;\n.field g:I\n    iget v0, p0, La/b;->f:I\n".toList := by
  decide +kernel

end Assembly

end Renaming
