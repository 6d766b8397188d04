import Renaming.Proofs.Assembly.Changed
import Renaming.Proofs.Assembly.Scan

/-!
# `Proofs/Assembly/Spared` — code that a table leaves alone

A table spares a class if the class is excluded, whatever else the table says of it, or if it has no
new name and no member that is renamed. A text in which all classes are spared comes out as it was.

Not that nothing is done to it: the passes replace definitions and references even where the new
name is the old one, and the later passes keep clear of what was replaced. So the passes are not
shown to do nothing, but to do what they do for the *empty* table (`renameLine_eq_empty`):

> on a line whose classes are spared, a table and the empty table carry out the same edits.

For the empty table the old names are the new ones, and that is all that is asked of a line. What
has to be looked after is that each class that a pass looks up is one that the line shows
(`shownClasses`), above all those in a signature, which is scanned for itself and not as a part of
its line (`mem_scan_type_of_slice`).
-/

set_option autoImplicit false

namespace Renaming

namespace Table

/-! ## Classes that are spared -/

/-- The class is excluded, or it keeps its name and no key of a member begins with it. -/
def Spares (t : Table) (name : Text) : Prop :=
  t.isExcluded name = true ∨
    t.mapClass name = name ∧ ∀ key ∈ t.fields.keys ++ t.methods.keys, ¬ name ++ ['/'] <+: key

instance (t : Table) (name : Text) : Decidable (t.Spares name) := by
  unfold Spares
  infer_instance

section Spares

variable {t : Table} {owner : Text}

theorem Spares.mapClass_eq (h : t.Spares owner) : t.mapClass owner = owner := by
  rcases h with hx | h
  · rw [mapClass, if_pos hx]
  · exact h.1

theorem Spares.mapClassExact_eq (h : t.Spares owner) : t.mapClassExact owner = owner := by
  by_contra hne
  have hclass := mapClass_of_mapClassExact_ne hne
  rw [h.mapClass_eq] at hclass
  exact hne hclass.symm

theorem begins_bareKey (name : Text) : owner ++ ['/'] <+: bareKey owner name :=
  ⟨name, by simp [bareKey]⟩

theorem begins_format (name : Text) (d : Option Text) :
    owner ++ ['/'] <+: (MemberKey.mk owner name d).format := by
  cases d with
  | none => exact begins_bareKey name
  | some d => exact (begins_bareKey name).trans (List.prefix_append _ _)

theorem Spares.mapField_eq_self (h : t.Spares owner) (name : Text) (d : Option Text) :
    t.mapField owner name d = name := by
  by_cases hx : t.isExcluded owner = true
  · rw [mapField, if_pos hx]
  · have hkeys := (h.resolve_left hx).2
    have hget : ∀ key, owner ++ ['/'] <+: key → t.fields.get? key = none := by
      intro key hkey
      rw [OrderedMap.get?_eq_none_iff]
      exact fun hmem => hkeys key (List.mem_append_left _ hmem) hkey
    have hqualified : (d.bind fun d => t.fields.get? (qualifiedKey owner name d)) = none := by
      cases d with
      | none => rfl
      | some d => exact hget _ (begins_format name (some d))
    rw [mapField, if_neg hx, findField?, hqualified, hget _ (begins_bareKey name)]
    rfl

theorem Spares.mapMethod_eq_self (h : t.Spares owner) (name : Text) (d : Option Text) :
    t.mapMethod owner name d = name := by
  unfold mapMethod
  split
  · rfl
  · rename_i hx
    rw [Bool.or_eq_true, not_or] at hx
    have hkeys := (h.resolve_left hx.2).2
    have hget : t.methods.get? (MemberKey.mk owner name d).format = none := by
      rw [OrderedMap.get?_eq_none_iff]
      exact fun hmem => hkeys _ (List.mem_append_right _ hmem) (begins_format name d)
    rw [OrderedMap.getD, hget]
    rfl

/-- The table without renames spares every class. -/
theorem spares_empty (name : Text) : empty.Spares name := by
  refine .inr ⟨?_, fun key hkey => absurd hkey List.not_mem_nil⟩
  have hnested : empty.mapNested name = name := resolveNested_of_forall_none fun _ _ => rfl
  have hrelocate : empty.relocate name = name := by
    unfold relocate
    split <;> rfl
  show (if empty.mapNested name = name then empty.relocate name else empty.mapNested name) = name
  rw [if_pos hnested, hrelocate]

end Spares

end Table

namespace Assembly

open Line

/-! ## Classes that a text shows -/

/-- Whether a part of the code lies outside of its literals. -/
def isOutside (code : Text) (s : Span) : Bool := !(literals code).any s.overlaps

/-- The owners of references and the classes of types in code, outside of its literals. -/
def shownClasses (code : Text) : List Text :=
  ((scan reference? code).filter fun x => isOutside code ⟨x.1, x.1 + x.2.2⟩).map (·.2.1.owner) ++
    ((scan type? code).filter fun x => isOutside code ⟨x.1, x.1 + x.2.2⟩).map (·.2.1)

/-- The class that a text declares first, and the classes that its lines show outside of literals
and comments. -/
def classesOf (text : Text) : List Text :=
  (findClassName text).toList ++
    (sourceLines text).flatMap fun line => shownClasses (lineParts line).code

theorem isOutside_of_isFree {l : Line} {s : Span} (h : l.isFree s = true) :
    isOutside l.text s = true := by
  simp only [isFree, blocked, List.any_append, Bool.not_eq_true', Bool.or_eq_false_iff] at h
  rw [isOutside, h.1]
  rfl

/-- What lies in a part outside of the literals lies outside of them. -/
theorem isOutside_of_within {code : Text} {s s' : Span} (h : isOutside code s = true)
    (hstart : s.start ≤ s'.start) (hstop : s'.stop ≤ s.stop) : isOutside code s' = true := by
  simp only [isOutside, Bool.not_eq_true', List.any_eq_false] at h ⊢
  intro literal hliteral hoverlaps
  refine h literal hliteral ?_
  simp only [Span.overlaps, Bool.and_eq_true, decide_eq_true_eq] at hoverlaps ⊢
  omega

theorem owner_mem_shownClasses {code : Text} {i n : Nat} {r : Reference}
    (h : (i, r, n) ∈ scan reference? code) (houtside : isOutside code ⟨i, i + n⟩ = true) :
    r.owner ∈ shownClasses code :=
  List.mem_append_left _ (List.mem_map.2 ⟨_, List.mem_filter.2 ⟨h, houtside⟩, rfl⟩)

theorem class_mem_shownClasses {code : Text} {i n : Nat} {name : Text}
    (h : (i, name, n) ∈ scan type? code) (houtside : isOutside code ⟨i, i + n⟩ = true) :
    name ∈ shownClasses code :=
  List.mem_append_right _ (List.mem_map.2 ⟨_, List.mem_filter.2 ⟨h, houtside⟩, rfl⟩)

/-! ## Types in a part of the code -/

/-- A type that was found is found whatever stands behind it. -/
theorem mem_scan_type_append {s : Text} {i n : Nat} {name : Text}
    (h : (i, name, n) ∈ scan type? s) (b : Text) :
    (i, name, n) ∈ scan type? (s ++ b) ∧ i + n ≤ s.length := by
  obtain ⟨hi, hfind⟩ := find_of_mem_scan h
  obtain ⟨rest, hdrop, -, hn⟩ := type?_eq_some_iff.1 hfind
  -- behind its semicolon no class name is open, and the scan can be cut there
  have hs : s = (s.take i ++ 'L' :: name ++ [';']) ++ rest := by
    conv_lhs => rw [← List.take_append_drop i s, hdrop]
    simp
  have hlen : (s.take i ++ 'L' :: name ++ [';']).length = i + n := by
    simp only [List.length_append, List.length_take, List.length_cons, List.length_nil]
    omega
  have hcut := fun t => scanFrom_type_append (s := .plain) (v := t)
    (Context.isSound_of_opening_eq_nil rfl)
    (by rw [Context.after_of_not_isClassChar (c := ';') (by decide)]; rfl :
      (Context.plain.after (s.take i ++ 'L' :: name ++ [';'])).opening = []) 0
  simp only [Context.opening_plain, List.nil_append, hlen, Nat.zero_add] at hcut
  have hfront : (i, name, n) ∈ scanFrom type? 0 0 (s.take i ++ 'L' :: name ++ [';']) := by
    rw [scan, hs, hcut, List.mem_append] at h
    refine h.resolve_right fun hbehind => ?_
    have := (find_of_mem_scanFrom hbehind).1
    omega
  constructor
  · rw [hs, List.append_assoc, scan, hcut]
    exact List.mem_append_left _ hfront
  · have := congrArg List.length hs
    rw [List.length_append, hlen] at this
    omega

/-- A type that is found in a part of the code is found in the code, if a character that belongs to
no class name stands in front of the part. -/
theorem mem_scan_type_of_slice {a s b : Text} {x : Char} (hx : isClassChar x = false) {i n : Nat}
    {name : Text} (h : (i, name, n) ∈ scan type? s) :
    (a.length + 1 + i, name, n) ∈ scan type? (a ++ x :: (s ++ b)) := by
  have hcut := scanFrom_type_append (s := .plain) (u := a ++ [x]) (v := s ++ b)
    (Context.isSound_of_opening_eq_nil rfl)
    (by rw [Context.after_of_not_isClassChar hx, Context.opening_behind]) 0
  simp only [Context.opening_plain, List.nil_append, Nat.zero_add, List.append_assoc,
    List.cons_append] at hcut
  rw [scan, hcut]
  refine List.mem_append_right _ ?_
  rw [List.length_append, List.length_singleton, ← Nat.add_zero (a.length + 1), scanFrom_add]
  exact List.mem_map.2 ⟨_, (mem_scan_type_append h b).1, rfl⟩

/-- The classes of a signature are shown by its line. -/
theorem mem_shownClasses_of_slice {a s b : Text} {x : Char} (hx : isClassChar x = false)
    {stop i n : Nat} {name : Text} (hstop : a.length + 1 + s.length ≤ stop)
    (houtside : isOutside (a ++ x :: (s ++ b)) ⟨0, stop⟩ = true)
    (h : (i, name, n) ∈ scan type? s) : name ∈ shownClasses (a ++ x :: (s ++ b)) := by
  have hend := (mem_scan_type_append h []).2
  refine class_mem_shownClasses (mem_scan_type_of_slice hx h) ?_
  refine isOutside_of_within houtside (Nat.zero_le _) ?_
  show a.length + 1 + i + n ≤ stop
  omega

/-! ## The passes -/

section Passes

variable {t : Table} {owner code : Text} {l : Line}

theorem typeEdits_eq_nil {f : Text → Text} {s : Text}
    (h : ∀ i name n, (i, name, n) ∈ scan type? s → f name = name) (place : Nat) :
    typeEdits f place s = [] := by
  rw [typeEdits, List.filterMap_eq_nil_iff]
  rintro ⟨i, name, n⟩ hmem
  exact if_pos (h i name n hmem)

/-- In a signature that its line shows, a table that spares the classes edits none. -/
theorem typeEdits_of_slice {a s b : Text} {x : Char} (hx : isClassChar x = false) {stop : Nat}
    (hcode : code = a ++ x :: (s ++ b)) (hstop : a.length + 1 + s.length ≤ stop)
    (houtside : isOutside code ⟨0, stop⟩ = true) (h : ∀ name ∈ shownClasses code, t.Spares name)
    (place : Nat) : typeEdits t.mapClassExact place s = [] := by
  subst hcode
  refine typeEdits_eq_nil (fun i name n hmem => ?_) place
  exact (h name (mem_shownClasses_of_slice hx hstop houtside hmem)).mapClassExact_eq

theorem fieldPass_eq_empty (howner : t.Spares owner)
    (h : ∀ name ∈ shownClasses l.text, t.Spares name) :
    fieldPass t owner l = fieldPass .empty owner l := by
  cases hd : fieldDefinition? l.text with
  | none => rw [fieldPass_of_none hd, fieldPass_of_none hd]
  | some d =>
    rw [fieldPass_of_some hd, fieldPass_of_some hd]
    by_cases hfree : l.isFree ⟨0, d.stop⟩ = true
    · obtain ⟨indent, gap, c, rest, hcode, hplace, -⟩ := fieldDefinition?_eq_some hd
      have htype : ∀ t : Table, (∀ name ∈ shownClasses l.text, t.Spares name) →
          typeEdits t.mapClassExact d.typePlace d.type = [] := by
        intro t h
        refine typeEdits_of_slice (x := ':') (by decide)
          (hcode.trans (List.append_assoc ..).symm) ?_ (isOutside_of_isFree hfree) h _
        simp only [FieldDefinition.stop, FieldDefinition.typePlace, hplace, List.length_append]
        omega
      simp only [FieldDefinition.edits, htype t h, htype .empty fun name _ => Table.spares_empty name,
        howner.mapField_eq_self, (Table.spares_empty owner).mapField_eq_self]
    · simp only [if_neg hfree]

theorem methodPass_eq_empty (howner : t.Spares owner)
    (h : ∀ name ∈ shownClasses l.text, t.Spares name) :
    methodPass t owner l = methodPass .empty owner l := by
  cases hd : methodDefinition? l.text with
  | none => rw [methodPass_of_none hd, methodPass_of_none hd]
  | some d =>
    rw [methodPass_of_some hd, methodPass_of_some hd]
    by_cases hfree : l.isFree ⟨0, d.stop⟩ = true
    · obtain ⟨indent, gap, c, rest, hcode, hplace, -⟩ := methodDefinition?_eq_some hd
      have hlead : l.text = definitionLead indent ".method".toList gap c ++ d.name ++
          '(' :: (d.parameters ++ ')' :: (d.result ++ rest)) := by rw [hcode]; simp
      have hlead' : l.text = (definitionLead indent ".method".toList gap c ++ d.name ++
          '(' :: d.parameters) ++ ')' :: (d.result ++ rest) := by rw [hcode]; simp
      have htypes : ∀ t : Table, (∀ name ∈ shownClasses l.text, t.Spares name) →
          typeEdits t.mapClassExact d.parametersPlace d.parameters = [] ∧
            typeEdits t.mapClassExact d.resultPlace d.result = [] := by
        intro t h
        constructor
        · refine typeEdits_of_slice (x := '(') (by decide) hlead ?_ (isOutside_of_isFree hfree) h _
          simp only [MethodDefinition.stop, MethodDefinition.resultPlace,
            MethodDefinition.parametersPlace, hplace, List.length_append]
          omega
        · refine typeEdits_of_slice (x := ')') (by decide) hlead' ?_ (isOutside_of_isFree hfree) h _
          simp only [MethodDefinition.stop, MethodDefinition.resultPlace,
            MethodDefinition.parametersPlace, hplace, List.length_append, List.length_cons]
          omega
      have hempty := htypes .empty fun name _ => Table.spares_empty name
      simp only [MethodDefinition.edits, (htypes t h).1, (htypes t h).2, hempty.1, hempty.2,
        howner.mapMethod_eq_self, (Table.spares_empty owner).mapMethod_eq_self]
    · simp only [if_neg hfree]

theorem mapReference_of_spares {r : Reference} (h : t.Spares r.owner) :
    mapReference t r = r.name := by
  unfold mapReference
  split
  · exact h.mapMethod_eq_self ..
  · exact h.mapField_eq_self ..

theorem referencePass_eq_empty (h : ∀ name ∈ shownClasses l.text, t.Spares name) :
    referencePass t l = referencePass .empty l := by
  unfold referencePass referencePassEdits
  refine congrArg l.edit (List.flatMap_congr ?_)
  rintro ⟨i, r, n⟩ hmem
  by_cases hfree : l.isFree ⟨i, i + n⟩ = true
  · have hr := h _ (owner_mem_shownClasses hmem (isOutside_of_isFree hfree))
    have hempty := Table.spares_empty r.owner
    simp only [referenceEdits, hr.mapClass_eq, hempty.mapClass_eq, mapReference_of_spares hr,
      mapReference_of_spares hempty]
  · simp only [if_neg hfree]

theorem typePass_eq_empty (h : ∀ name ∈ shownClasses l.text, t.Spares name) :
    typePass t l = typePass .empty l := by
  unfold typePass typePassEdits
  refine congrArg l.edit (List.filterMap_congr ?_)
  rintro ⟨i, name, n⟩ hmem
  by_cases hfree : l.isFree ⟨i, i + n⟩ = true
  · have hname := h _ (class_mem_shownClasses hmem (isOutside_of_isFree hfree))
    simp only [hname.mapClass_eq, (Table.spares_empty name).mapClass_eq]
  · simp only [hfree, Bool.false_and, Bool.false_eq_true, if_false]

/-! ## The empty table -/

/-- For the empty table every name is its own new name. -/
theorem IsRename.eq_of_empty {k : Nat} {old new : Text} (h : IsRename .empty owner code k old new) :
    new = old := by
  cases h with
  | ofClass | ofOwner => exact (Table.spares_empty _).mapClass_eq
  | ofMember => exact mapReference_of_spares (Table.spares_empty _)
  | ofField => exact (Table.spares_empty owner).mapField_eq_self ..
  | ofMethod => exact (Table.spares_empty owner).mapMethod_eq_self ..

theorem forall_not_isRenamed_of_sound {k : Nat} {z : Zone} {ps : List Piece}
    (h : Sound (Replaces .empty owner code) k z ps) : ∀ p ∈ ps, p.isRenamed = false := by
  induction ps generalizing k z with
  | nil => simp
  | cons p ps ih =>
    cases p with
    | kept c => exact List.forall_mem_cons.2 ⟨rfl, ih h⟩
    | replaced old new =>
      refine List.forall_mem_cons.2 ⟨?_, ih h.2⟩
      simp [Piece.isRenamed, h.1.rename.eq_of_empty]

/-- A line on its way through the passes of the empty table says what it said at first. -/
theorem Progress.text_of_empty (hl : Progress .empty owner code l) : l.text = code := by
  rw [← hl.source]
  exact textOf_of_forall_not_isRenamed (forall_not_isRenamed_of_sound hl.sound)

theorem Progress.renamed_of_empty (hl : Progress .empty owner code l) : l.renamed = 0 := by
  rw [Line.renamed, List.countP_eq_zero]
  intro p hp
  simp [forall_not_isRenamed_of_sound hl.sound p hp]

theorem quoteFree_empty : Table.empty.QuoteFree := by decide

/-- **On a line whose classes are spared, a table does what the empty table does.** -/
theorem renameLine_eq_empty (howner : t.Spares owner)
    (h : ∀ name ∈ shownClasses code, t.Spares name) :
    renameLine t owner code = renameLine .empty owner code := by
  have hstart : (Line.ofText code).text = code := text_ofText code
  have hfield := (progress_fieldPass .empty owner code).text_of_empty
  have hmethod := progress_methodPass .empty owner code
  have hreference := (hmethod.referencePass quoteFree_empty).text_of_empty
  unfold renameLine
  rw [fieldPass_eq_empty howner (hstart.symm ▸ h), methodPass_eq_empty howner (hfield.symm ▸ h),
    referencePass_eq_empty (hmethod.text_of_empty.symm ▸ h),
    typePass_eq_empty (hreference.symm ▸ h)]

theorem renamedLine_of_spares {line : Text} (howner : t.Spares owner)
    (h : ∀ name ∈ shownClasses (lineParts line).code, t.Spares name) :
    renamedLine t owner line = (line, 0) := by
  have hl := progress_renameLine quoteFree_empty owner (lineParts line).code
  rw [← renameLine_eq_empty howner h] at hl
  refine Prod.ext ?_ ?_
  · rw [renamedLine_fst, hl.text_of_empty]
    exact append_lineParts line
  · rw [renamedLine_snd]
    exact hl.renamed_of_empty

end Passes

/-! ## A whole text -/

/-- **A text whose classes are spared comes out as it was.** -/
theorem rename_of_spares {t : Table} {text : Text} (h : ∀ name ∈ classesOf text, t.Spares name) :
    rename t text = ⟨text, findClassName text, findClassName text, 0⟩ := by
  cases howner : findClassName text with
  | none => simp [rename, howner]
  | some owner =>
    have hspared : t.Spares owner := h owner (by simp [classesOf, howner])
    have hlines : (sourceLines text).map (renamedLine t owner) =
        (sourceLines text).map fun line => (line, 0) := by
      refine List.map_congr_left fun line hline => ?_
      apply renamedLine_of_spares hspared
      intro name hname
      exact h name (List.mem_append_right _ (List.mem_flatMap.2 ⟨line, hline, hname⟩))
    simp only [rename, howner, hlines, hspared.mapClass_eq, List.map_map, Function.comp_def,
      List.map_id', List.foldr_map, Nat.zero_add, List.foldr_fixed]
    rw [sourceLines, Text.joinWith_splitOn]

/-- An excluded class with renames of its own, of the class around it, of its package and of its
members, and a class that nothing is said about. -/
theorem rename_of_spares_excluded :
    let t := (((((Table.empty.addClass "k/A".toList "x/Y".toList .null).addClass "k/A$B".toList
      "x/Z".toList .null).addPackage "k".toList "q".toList).addField "k/A$B/f".toList
        "g".toList).addMethod "k/A$B/m ()Lk/A;".toList "n".toList).exclude "k".toList
    let text := (".class Lk/A$B;\n.field f:Lk/A;\n.method m()Lk/A;\n" ++
      "iget v0, v1, Lk/A$B;->f:Lk/A; # Lk/A;\nconst-string v0, \"Lj/C;\"\n" ++
        "new-array v0, [Ld/E;").toList
    (∀ name ∈ classesOf text, t.Spares name) ∧
      rename t text = ⟨text, some "k/A$B".toList, some "k/A$B".toList, 0⟩ := by
  intro t text
  have h : ∀ name ∈ classesOf text, t.Spares name := by decide +kernel
  have hdeclared : findClassName text = some "k/A$B".toList := by decide +kernel
  refine ⟨h, ?_⟩
  rw [rename_of_spares h, hdeclared]

end Assembly

end Renaming
