import Renaming.Proofs.Assembly.Intact
import Renaming.Proofs.Assembly.Seat

/-!
# `Proofs/Assembly/Changed` — the counter and the text agree

Renaming answers a text and the number of names that it changed. That nothing is counted where
nothing was changed is plain. The other way round is not: a line could end up as it was although
names in it were changed, if one change made up for another. It cannot, for a name is never alone:

> behind every name stands a mark (`Enclosed`) that is in no name of its kind, old or new.

So the first mark of the new line behind the place of a name is the mark that stood behind the old
name, and if the lines are one, so are the names. This needs the mark to be there still, and it is,
because no name begins with the mark of the one before it (`Enclosed.not_adjacent`).
-/

set_option autoImplicit false

namespace Renaming

namespace Assembly

open Line

/-! ## The mark behind a name -/

theorem of_not_isBlankOr {marks : List Char} {c : Char} (h : (!isBlankOr marks c) = true) :
    Text.isBlank c = false ∧ c ∉ marks := by
  simpa [isBlankOr] using h

/-- What stands around a name: the text in front of it, the name, and the mark behind it. -/
inductive Enclosed : Text → Text → Char → Prop
  | ofClass {front name : Text} (h : ∀ c ∈ name, isOwnerChar c = true) :
      Enclosed (front ++ ['L']) name ';'
  | ofMember {front name : Text} {mark : Char} (hmark : mark = '(' ∨ mark = ':')
      (h : ∀ c ∈ name, isMemberChar c = true) : Enclosed (front ++ [';', '-', '>']) name mark
  | ofDefinition {front name : Text} {blank mark : Char} (hblank : Text.isBlank blank = true)
      (hmark : mark = '(' ∨ mark = ':') (h : ∀ c ∈ name, Text.isBlank c = false)
      (hname : mark ∉ name) : Enclosed (front ++ [blank]) name mark

namespace Enclosed

variable {front name rest : Text} {mark mark' : Char}

theorem mark_mem (h : Enclosed front name mark) : mark ∈ [';', ':', '('] := by
  cases h with
  | ofClass => simp
  | ofMember hmark => rcases hmark with rfl | rfl <;> simp
  | ofDefinition _ hmark => rcases hmark with rfl | rfl <;> simp

theorem mark_notMem (h : Enclosed front name mark) : mark ∉ name := by
  cases h with
  | ofClass h =>
    intro hmem
    exact absurd (h _ hmem) (by decide)
  | ofMember hmark h =>
    intro hmem
    rcases hmark with rfl | rfl <;> exact absurd (h _ hmem) (by decide)
  | ofDefinition _ _ _ hname => exact hname

theorem isBlank_eq_false (h : Enclosed front name mark) : ∀ c ∈ name, Text.isBlank c = false := by
  cases h with
  | ofClass h => exact fun c hc => (of_not_isBlankOr (h c hc)).1
  | ofMember _ h => exact fun c hc => (of_not_isBlankOr (h c hc)).1
  | ofDefinition _ _ h => exact h

/-- The name of a definition ends before the first of the characters that it may not hold. -/
theorem of_definition {blank : Char} {marks : List Char} (hblank : Text.isBlank blank = true)
    (hmark : mark = '(' ∨ mark = ':') (h : ∀ c ∈ name, (!isBlankOr (mark :: marks) c) = true) :
    Enclosed (front ++ [blank]) name mark := by
  refine .ofDefinition hblank hmark ?_ ?_
  · exact fun c hc => (of_not_isBlankOr (h c hc)).1
  · exact fun hmem => (of_not_isBlankOr (h mark hmem)).2 List.mem_cons_self

/-- An arrow with the end of a class in front of it is not within a class. -/
theorem arrow_ne {front' : Text} (h : ∀ c ∈ name, isOwnerChar c = true) :
    front' ++ [';', '-', '>'] ≠ front ++ ['L'] ++ name := by
  intro heq
  have hsemicolon : ';' ∉ name := fun hmem => absurd (h _ hmem) (by decide)
  rcases List.append_eq_append_iff.1 heq with ⟨d, hfront, harrow⟩ | ⟨d, -, hname⟩
  · cases d using List.reverseRecOn with
    | nil =>
      rw [List.nil_append] at harrow
      exact hsemicolon (by simp [← harrow])
    | append_singleton d c =>
      -- the arrow would reach over the letter in front of the class
      rw [← List.append_assoc] at hfront
      obtain ⟨-, hc⟩ := List.append_inj' hfront rfl
      obtain rfl := (List.cons.inj hc).1
      have hmem : 'L' ∈ [';', '-', '>'] := by simp [harrow]
      exact absurd hmem (by decide)
  · exact hsemicolon (by simp [hname])

/-- **No name begins with the mark of the name in front of it.** -/
theorem not_adjacent (h : Enclosed front name mark) (hne : name ≠ []) {behind : Text} :
    ¬ Enclosed (front ++ name) (mark :: behind) mark' := by
  intro h'
  generalize hfront' : front ++ name = front' at h'
  generalize hname' : mark :: behind = name' at h'
  have hmark := h.mark_mem
  cases h' with
  | ofClass hchars =>
    have hfirst := hchars mark (by simp [← hname'])
    simp only [List.mem_cons, List.not_mem_nil, or_false] at hmark
    rcases hmark with rfl | rfl | rfl <;> exact absurd hfirst (by decide)
  | ofMember _ hchars =>
    have hfirst := hchars mark (by simp [← hname'])
    cases h with
    | ofClass howner => exact arrow_ne howner hfront'.symm
    | ofMember hmark => rcases hmark with rfl | rfl <;> exact absurd hfirst (by decide)
    | ofDefinition _ hmark => rcases hmark with rfl | rfl <;> exact absurd hfirst (by decide)
  | @ofDefinition _ _ blank _ hblank =>
    -- a definition begins behind a blank, and a name does not end in one
    have hlast : (front ++ name).getLast? = some blank := by simp [hfront']
    rw [List.getLast?_append_of_ne_nil _ hne] at hlast
    have hmem := List.mem_of_getLast? hlast
    rw [h.isBlank_eq_false _ hmem] at hblank
    cases hblank

end Enclosed

/-! ## Names in a line of code -/

section Pieces

variable {t : Table} {owner code : Text}

theorem exists_front_of_drop {i : Nat} {w : Text} (h : code.drop i = w) (hw : w ≠ []) :
    ∃ front, code = front ++ w ∧ front.length = i := by
  have hlen := congrArg List.length h
  have hpos := List.length_pos_iff.2 hw
  rw [List.length_drop] at hlen
  refine ⟨code.take i, ?_, ?_⟩
  · rw [← h, List.take_append_drop]
  · rw [List.length_take]
    omega

/-- Every name that the passes find has a mark behind it. -/
theorem IsRename.exists_enclosed {k : Nat} {old new : Text} (h : IsRename t owner code k old new) :
    ∃ front mark rest, code = front ++ (old ++ mark :: rest) ∧ front.length = k ∧
      Enclosed front old mark := by
  cases h with
  | @ofClass i n _ hfind =>
    obtain ⟨rest, hdrop, hname, -⟩ := type?_eq_some_iff.1 hfind
    obtain ⟨front, hcode, rfl⟩ := exists_front_of_drop hdrop (List.cons_ne_nil _ _)
    refine ⟨front ++ ['L'], ';', rest, by simp [hcode], by simp, .ofClass ?_⟩
    exact fun c hc => isOwnerChar_of_isClassChar (hname.all c hc)
  | @ofOwner i n r hfind =>
    obtain ⟨signature, rest, hdrop, hr, -⟩ := reference?_eq_some_iff.1 hfind
    obtain ⟨front, hcode, rfl⟩ := exists_front_of_drop hdrop (List.cons_ne_nil _ _)
    exact ⟨front ++ ['L'], ';', '-' :: '>' :: (r.name ++ (signature ++ rest)),
      by simp [hcode, Reference.text], by simp, .ofClass hr.owner.all⟩
  | @ofMember i n r hfind =>
    obtain ⟨signature, rest, hdrop, hr, -⟩ := reference?_eq_some_iff.1 hfind
    obtain ⟨front, hcode, rfl⟩ := exists_front_of_drop hdrop (List.cons_ne_nil _ _)
    obtain ⟨mark, behind, hsignature, hmark, -⟩ := hr.signature.exists_mark
    refine ⟨front ++ 'L' :: r.owner ++ [';', '-', '>'], mark, behind ++ rest, ?_, ?_,
      .ofMember hmark hr.name.all⟩
    · simp [hcode, Reference.text, hsignature]
    · simp only [List.length_append, List.length_cons, List.length_nil]
      omega
  | @ofField d hd =>
    obtain ⟨indent, gap, b, rest, hcode, hplace, -, hlead, hname, -⟩ := fieldDefinition?_eq_some hd
    refine ⟨indent ++ ".field".toList ++ gap ++ [b], ':', d.type ++ rest, ?_, ?_,
      .of_definition hlead.blank (.inr rfl) hname.all⟩
    · simp [hcode, definitionLead]
    · simp [hplace, definitionLead]
  | @ofMethod d hd =>
    obtain ⟨indent, gap, b, rest, hcode, hplace, -, hlead, hname, -⟩ :=
      methodDefinition?_eq_some hd
    refine ⟨indent ++ ".method".toList ++ gap ++ [b], '(',
      d.parameters ++ ')' :: (d.result ++ rest), ?_, ?_,
      .of_definition hlead.blank (.inl rfl) hname.all⟩
    · simp [hcode, definitionLead]
    · simp [hplace, definitionLead]

/-! ## One line -/

/-- Pieces that rename nothing say what they said at first. -/
theorem textOf_of_forall_not_isRenamed {ps : List Piece} (h : ∀ p ∈ ps, p.isRenamed = false) :
    textOf ps = sourceOf ps := by
  induction ps with
  | nil => rfl
  | cons p ps ih =>
    rw [List.forall_mem_cons] at h
    cases p with
    | kept c => rw [textOf_kept, sourceOf_kept, ih h.2]
    | replaced old new =>
      have hsame : old = new := by simpa [Piece.isRenamed] using h.1
      rw [textOf_replaced, sourceOf_replaced, hsame, ih h.2]

/-- The piece behind a replaced name is the mark, and it was kept. -/
theorem exists_kept_behind {front old new : Text} {z z' : Zone} {ps : List Piece}
    (hP : Replaces t owner code front.length z old new)
    (hs : Sound (Replaces t owner code) (front ++ old).length z' ps)
    (hcode : code = front ++ old ++ sourceOf ps) :
    ∃ mark ps', ps = .kept mark :: ps' ∧ Enclosed front old mark := by
  obtain ⟨a, mark, rest, hcode', hlen, henclosed⟩ := hP.rename.exists_enclosed
  rw [← List.append_assoc] at hcode'
  obtain ⟨hfront, hbehind⟩ := List.append_inj (hcode'.symm.trans hcode) (by simp [hlen])
  obtain rfl := List.append_cancel_right hfront
  cases ps with
  | nil => cases hbehind
  | cons p ps =>
    cases p with
    | kept c =>
      obtain rfl := (List.cons.inj hbehind).1
      exact ⟨mark, ps, rfl, henclosed⟩
    | replaced old' new' =>
      obtain ⟨hP', -⟩ := hs
      obtain ⟨a', mark', rest', hcode'', hlen', henclosed'⟩ := hP'.rename.exists_enclosed
      obtain ⟨rfl, -⟩ := List.append_inj (hcode''.symm.trans hcode) hlen'
      -- another name there would begin with the mark
      cases old' with
      | nil => exact absurd rfl hP'.ne_nil
      | cons c old' =>
        rw [sourceOf_replaced, List.cons_append] at hbehind
        obtain rfl := (List.cons.inj hbehind).1
        exact absurd henclosed' (henclosed.not_adjacent hP.ne_nil)

/-- Pieces that say what they said at first rename nothing. -/
theorem forall_not_isRenamed_of_textOf (ht : ∀ c ∈ [';', ':', '('], t.FreeOf c)
    {front : Text} {z : Zone} {ps : List Piece}
    (hs : Sound (Replaces t owner code) front.length z ps)
    (hcode : code = front ++ sourceOf ps) (htext : textOf ps = sourceOf ps) :
    ∀ p ∈ ps, p.isRenamed = false := by
  -- along the pieces; `front` is the code in front of them
  induction ps generalizing front z with
  | nil => simp
  | cons p ps ih =>
    cases p with
    | kept c =>
      rw [textOf_kept, sourceOf_kept, List.cons.injEq] at htext
      have hs' : Sound (Replaces t owner code) (front ++ [c]).length (z.next c) ps := by
        rw [List.length_append]
        exact hs
      exact List.forall_mem_cons.2 ⟨rfl, ih hs' (by simp [hcode]) htext.2⟩
    | replaced old new =>
      obtain ⟨hP, hs⟩ := hs
      rw [← List.length_append] at hs
      rw [sourceOf_replaced, ← List.append_assoc] at hcode
      obtain ⟨mark, ps', rfl, henclosed⟩ := exists_kept_behind hP hs hcode
      have hnew : mark ∉ new :=
        hP.rename.notMem (ht mark henclosed.mark_mem) henclosed.mark_notMem
      -- both texts go on to the same mark
      have hcut : Text.cut mark (new ++ mark :: textOf ps') = some (old, sourceOf ps') :=
        Text.cut_eq_some_iff.2 ⟨htext, henclosed.mark_notMem⟩
      rw [Text.cut_eq_some_iff.2 ⟨rfl, hnew⟩, Option.some.injEq, Prod.mk.injEq] at hcut
      refine List.forall_mem_cons.2 ⟨by simp [Piece.isRenamed, hcut.1], ih hs hcode ?_⟩
      rw [textOf_kept, sourceOf_kept, hcut.2]

theorem Progress.renamed_eq_zero_iff (ht : ∀ c ∈ [';', ':', '('], t.FreeOf c) {l : Line}
    (hl : Progress t owner code l) : l.renamed = 0 ↔ l.text = code := by
  have hcount : l.renamed = 0 ↔ ∀ p ∈ l.pieces, p.isRenamed = false := by
    simp [Line.renamed, List.countP_eq_zero]
  have hsource : sourceOf l.pieces = code := hl.source
  rw [hcount]
  constructor
  · intro h
    exact (textOf_of_forall_not_isRenamed h).trans hsource
  · intro htext
    have hsame : textOf l.pieces = sourceOf l.pieces := Eq.trans htext hsource.symm
    exact @forall_not_isRenamed_of_textOf t owner code ht [] .code _ hl.sound hsource.symm hsame

end Pieces

/-! ## A whole text -/

theorem renamedLine_snd (t : Table) (owner line : Text) :
    (renamedLine t owner line).2 = (renameLine t owner (lineParts line).code).renamed := by
  simp only [renamedLine]

theorem renamed_rename (t : Table) {text owner : Text} (howner : findClassName text = some owner) :
    (rename t text).renamed =
      ((sourceLines text).map fun line => (renamedLine t owner line).2).sum := by
  simp only [rename, howner, List.foldr_map, List.sum_eq_foldr]

/-- Behind its code a line keeps what it holds, and so the code decides. -/
theorem renamedLine_snd_eq_zero_iff {t : Table} (hquote : t.QuoteFree)
    (hmarks : ∀ c ∈ [';', ':', '('], t.FreeOf c) (owner line : Text) :
    (renamedLine t owner line).2 = 0 ↔ (renamedLine t owner line).1 = line := by
  have hl := progress_renameLine hquote owner (lineParts line).code
  rw [renamedLine_snd, hl.renamed_eq_zero_iff hmarks, renamedLine_fst]
  conv_rhs => rhs; rw [← append_lineParts line]
  rw [List.append_cancel_right_eq, List.append_cancel_right_eq]

theorem sourceLines_inj {text text' : Text} :
    sourceLines text = sourceLines text' ↔ text = text' := by
  constructor
  · intro hlines
    have hjoin := congrArg (Text.joinWith '\n') hlines
    rwa [sourceLines, sourceLines, Text.joinWith_splitOn, Text.joinWith_splitOn] at hjoin
  · exact congrArg sourceLines

/-- **Renaming counts nothing just when it changes nothing.** -/
theorem renamed_eq_zero_iff_text_eq {t : Table} (ht : ∀ c ∈ ['\n', ';', ':', '(', '"'], t.FreeOf c)
    (text : Text) : (rename t text).renamed = 0 ↔ (rename t text).text = text := by
  have hfeed : t.FreeOf '\n' := ht '\n' (by simp)
  have hquote : t.QuoteFree := ht '"' (by simp)
  have hmarks : ∀ c ∈ [';', ':', '('], t.FreeOf c := by
    intro c hc
    refine ht c ?_
    simp only [List.mem_cons] at hc ⊢
    tauto
  cases howner : findClassName text with
  | none => simp [rename, howner]
  | some owner =>
    have hlines : (rename t text).text = text ↔
        ∀ line ∈ sourceLines text, (renamedLine t owner line).1 = line := by
      rw [← sourceLines_inj, sourceLines_rename_of_freeOf hquote hfeed howner]
      conv_lhs => rhs; rw [← List.map_id (sourceLines text)]
      exact List.map_inj_left
    rw [renamed_rename t howner, hlines, List.sum_eq_zero_iff_forall_eq_nat, List.forall_mem_map]
    exact forall₂_congr fun line _ => renamedLine_snd_eq_zero_iff hquote hmarks owner line

/-- A class that is renamed to itself changes nothing, nor does a field that a comment speaks of. -/
theorem renamed_eq_zero_iff_text_eq_kept :
    let t := (Table.empty.addClass "a/b".toList "a/b".toList .null).addField
      "a/c/f".toList "g".toList
    let text := ".class La/b;\n.field f:La/b;\nsget v0, La/b;->f:La/b; # La/c;->f:I".toList
    (∀ c ∈ ['\n', ';', ':', '(', '"'], t.FreeOf c) ∧ (rename t text).renamed = 0 ∧
      (rename t text).text = text := by
  intro t text
  have ht : ∀ c ∈ ['\n', ';', ':', '(', '"'], t.FreeOf c := by
    rw [List.forall_mem_cons, List.forall_mem_cons, List.forall_mem_cons, List.forall_mem_cons,
      List.forall_mem_singleton]
    decide
  have hcount : (rename t text).renamed = 0 := by decide +kernel
  exact ⟨ht, hcount, (renamed_eq_zero_iff_text_eq ht text).1 hcount⟩

end Assembly

end Renaming
