import Renaming.Proofs.Assembly.Intact

/-!
# `Proofs/Assembly/Declaration` — lines that begin with `.class`

A line that declares a class begins with `.class`. No pass of the rewriter is about such lines, but
any of them may replace a name in any line, by any name that a table has. All the same a line begins
with the directive after the passes exactly if it did before (`startsDeclaration_renamedLine`), for
every table and every line: in front of each name that is replaced stands a character which neither
blanks nor the directive have in it, the letter of a type, the tip of an arrow, or a letter of
another directive (`Standing`), and up to there nothing is changed.
-/

set_option autoImplicit false

namespace Renaming

namespace Assembly

open Line

/-! ## Lines that begin with the directive -/

/-- The text begins with `.class`, blanks aside. -/
def StartsDeclaration (t : Text) : Prop := ".class".toList <+: t.dropWhile Text.isBlank

instance (t : Text) : Decidable (StartsDeclaration t) := by
  unfold StartsDeclaration
  infer_instance

/-- A character that stands neither in front of the directive nor in it. -/
def Foreign (c : Char) : Prop := Text.isBlank c = false ∧ c ∉ ".class".toList

theorem StartsDeclaration.append {t : Text} (h : StartsDeclaration t) (u : Text) :
    StartsDeclaration (t ++ u) := by
  unfold StartsDeclaration at h ⊢
  rw [List.dropWhile_append, if_neg]
  · exact h.trans (List.prefix_append _ _)
  · intro hnil
    rw [List.isEmpty_iff.1 hnil] at h
    exact absurd (List.prefix_nil.1 h) (by decide)

/-- Behind a foreign character it is decided whether the text begins with the directive. -/
theorem startsDeclaration_append_iff {t : Text} (ht : ∃ c ∈ t, Foreign c) (u : Text) :
    StartsDeclaration (t ++ u) ↔ StartsDeclaration t := by
  obtain ⟨c, hc, hblank, hdirective⟩ := ht
  have hmem : c ∈ t.dropWhile Text.isBlank := by
    have hsplit : c ∈ t.takeWhile Text.isBlank ++ t.dropWhile Text.isBlank := by
      rw [List.takeWhile_append_dropWhile]
      exact hc
    refine (List.mem_append.1 hsplit).resolve_left fun h => ?_
    rw [of_mem_takeWhile h] at hblank
    cases hblank
  have hne : (t.dropWhile Text.isBlank).isEmpty ≠ true :=
    fun hnil => List.ne_nil_of_mem hmem (List.isEmpty_iff.1 hnil)
  refine ⟨fun h => ?_, fun h => h.append u⟩
  unfold StartsDeclaration at h ⊢
  rw [List.dropWhile_append, if_neg hne] at h
  rcases List.prefix_or_prefix_of_prefix h (List.prefix_append _ u) with h | h
  · exact h
  · exact absurd (h.subset hmem) hdirective

/-- A comment is no part of the directive, so the code alone decides. -/
theorem startsDeclaration_splitComment (line : Text) :
    StartsDeclaration (splitComment line).1 ↔ StartsDeclaration line := by
  conv_rhs => rw [← splitComment_append line]
  refine ⟨fun h => h.append _, fun h => ?_⟩
  rcases splitFrom_comment .code line with hnil | ⟨r, hr⟩
  · change (splitComment line).2 = [] at hnil
    rwa [hnil, List.append_nil] at h
  · change (splitComment line).2 = '#' :: r at hr
    have hsharp : StartsDeclaration ((splitComment line).1 ++ ['#']) := by
      rw [hr, List.append_cons] at h
      exact (startsDeclaration_append_iff ⟨'#', by simp, by decide, by decide⟩ r).1 h
    unfold StartsDeclaration at hsharp ⊢
    rw [List.dropWhile_append] at hsharp
    split at hsharp
    · exact absurd hsharp (by decide)
    · rcases List.prefix_concat_iff.1 hsharp with h | h
      · have hmem : '#' ∈ ".class".toList := by
          rw [h]
          simp
        exact absurd hmem (by decide)
      · exact h

theorem declaration?_eq_none {code : Text} (h : ¬ StartsDeclaration code) :
    declaration? code = none := by
  have hafter : after? ".class".toList (code.dropWhile Text.isBlank) = none := by
    unfold after?
    rw [if_neg]
    exact fun hp => h (List.isPrefixOf_iff_prefix.1 hp)
  rw [declaration?, hafter]
  rfl

/-! ## What stands in front of a replaced name -/

/-- What holds of a replaced piece whatever names the table has. -/
structure Standing (t : Table) (code : Text) (k : Nat) (z : Zone) (old new : Text) : Prop where
  front : ∃ c ∈ code.take k, Foreign c
  answer : new = t.mapClass old ∨ new = old ∨ t.IsTarget new

section Passes

variable {t : Table} {owner code : Text}

theorem Standing.notMem {c : Char} (ht : t.FreeOf c) {k : Nat} {z : Zone} {old new : Text}
    (h : Standing t code k z old new) (hc : c ∉ old) : c ∉ new := by
  rcases h.answer with rfl | h
  · exact notMem_mapClass ht hc
  · exact notMem_of_eq_or_isTarget ht h hc

/-- A character stands in front of the place behind it. -/
theorem mem_take_of_drop {i k : Nat} {w rest : Text} {c : Char} (h : code.drop i = w ++ rest)
    (hc : c ∈ w) (hk : i + w.length ≤ k) : c ∈ code.take k := by
  have htake : code.take (i + w.length) = code.take i ++ w := by
    rw [List.take_add, h, List.take_left]
  refine List.take_subset_take_left code hk ?_
  rw [htake]
  exact List.mem_append_right _ hc

theorem IsRename.standing {k : Nat} {z : Zone} {old new : Text}
    (h : IsRename t owner code k old new) : Standing t code k z old new := by
  have hL : Foreign 'L' := ⟨by decide, by decide⟩
  cases h with
  | ofClass hfind =>
    obtain ⟨rest, hdrop, -, -⟩ := type?_eq_some_iff.1 hfind
    exact ⟨⟨'L', mem_take_of_drop (w := ['L']) hdrop (by simp) (by simp), hL⟩, .inl rfl⟩
  | ofOwner hfind =>
    obtain ⟨signature, rest, hdrop, -, -⟩ := reference?_eq_some_iff.1 hfind
    exact ⟨⟨'L', mem_take_of_drop (w := ['L']) hdrop (by simp) (by simp), hL⟩, .inl rfl⟩
  | ofMember hfind =>
    obtain ⟨signature, rest, hdrop, -, -⟩ := reference?_eq_some_iff.1 hfind
    refine ⟨⟨'L', mem_take_of_drop (w := ['L']) hdrop (by simp) ?_, hL⟩,
      .inr (mapReference_eq ..)⟩
    rw [List.length_singleton]
    omega
  | ofField hd =>
    obtain ⟨indent, gap, b, rest, hcode, hplace, -⟩ := fieldDefinition?_eq_some hd
    refine ⟨⟨'f', ?_, by decide, by decide⟩, .inr (Table.mapField_eq ..)⟩
    rw [hplace, hcode, List.take_left]
    simp [definitionLead]
  | ofMethod hd =>
    obtain ⟨indent, gap, b, rest, hcode, hplace, -⟩ := methodDefinition?_eq_some hd
    refine ⟨⟨'m', ?_, by decide, by decide⟩, .inr (Table.mapMethod_eq ..)⟩
    rw [hplace, hcode, List.take_left]
    simp [definitionLead]

/-- A line in which everything that was replaced stands behind a foreign character. -/
structure Stands (t : Table) (code : Text) (l : Line) : Prop where
  source : l.source = code
  sound : Sound (Standing t code) 0 .code l.pieces

theorem Progress.stands {l : Line} (hl : Progress t owner code l) : Stands t code l :=
  ⟨hl.source, hl.sound.mono fun hP => hP.rename.standing⟩

/-- **The step**: an edit behind a foreign character. -/
theorem Stands.edit {l : Line} (hl : Stands t code l) {es : List Edit}
    (hes : es.Pairwise fun a b => a.span.stop < b.span.start)
    (h : ∀ e ∈ es, Placed (Standing t code) l.pieces e) : Stands t code (l.edit es) :=
  ⟨by rw [source_edit, hl.source], (edited_edit hes h).sound hl.sound⟩

theorem Stands.placed {l : Line} (hl : Stands t code l) {A B : List Piece} {u name v new : Text}
    {c : Char} (hps : l.pieces = A ++ ((u ++ c :: (name ++ v)).map .kept ++ B)) (hc : Foreign c)
    (hname : name ≠ []) (hnew : new = t.mapClass name ∨ new = name ∨ t.IsTarget new) :
    Placed (Standing t code) l.pieces
      (editAt ((textOf A).length + u.length + 1) name.length new) := by
  refine ⟨A ++ u.map .kept, c, name, v.map .kept ++ B, by simp [hps], hname,
    by simp [editAt, Nat.add_assoc], ⟨⟨c, ?_, hc⟩, hnew⟩⟩
  have hcode : code = (sourceOf (A ++ u.map .kept) ++ [c]) ++ (name ++ v ++ sourceOf B) := by
    rw [← hl.source]
    show sourceOf l.pieces = _
    rw [hps]
    simp
  have hlen : (sourceOf (A ++ u.map .kept)).length + 1 =
      (sourceOf (A ++ u.map .kept) ++ [c]).length := by
    rw [List.length_append, List.length_singleton]
  rw [hlen, hcode, List.take_left]
  simp

theorem Stands.typePass {l : Line} (hl : Stands t code l) : Stands t code (typePass t l) := by
  refine hl.edit (pairwise_typePass t l) fun e he => ?_
  obtain ⟨A, B, name, hps, -, -, hname, rfl⟩ := exists_part_of_mem_typePass he
  exact hl.placed (u := []) hps ⟨by decide, by decide⟩ hname.ne_nil (.inl rfl)

theorem Stands.referencePass {l : Line} (hl : Stands t code l) :
    Stands t code (referencePass t l) := by
  refine hl.edit (pairwise_referencePass t l) fun e he => ?_
  obtain ⟨A, B, r, signature, hps, -, -, hr, he⟩ := exists_part_of_mem_referencePass he
  simp only [referenceEdits, List.mem_cons, List.not_mem_nil, or_false] at he
  rcases he with rfl | rfl
  · exact hl.placed (u := []) hps ⟨by decide, by decide⟩ hr.owner.ne_nil (.inl rfl)
  · rw [r.text_eq] at hps
    have hlen : ('L' :: (r.owner ++ [';', '-'])).length = r.owner.length + 3 := by simp
    have hplaced := hl.placed hps ⟨by decide, by decide⟩ hr.name.ne_nil (.inr (mapReference_eq t r))
    rw [hlen] at hplaced
    exact hplaced

theorem stands_renameLine (t : Table) (owner code : Text) :
    Stands t code (renameLine t owner code) :=
  (progress_methodPass t owner code).stands.referencePass.typePass

/-- In front of the first replaced name nothing is changed, and it is decided there how the line
begins. -/
theorem Stands.startsDeclaration_iff {l : Line} (hl : Stands t code l) (u : Text) :
    StartsDeclaration (l.text ++ u) ↔ StartsDeclaration (code ++ u) := by
  obtain ⟨ps⟩ := l
  obtain ⟨hsource, hsound⟩ := hl
  change sourceOf ps = code at hsource
  change Sound _ _ _ ps at hsound
  show StartsDeclaration (textOf ps ++ u) ↔ _
  rcases eq_map_kept_or ps with ⟨w, rfl⟩ | ⟨w, old, new, B, rfl⟩
  · rw [sourceOf_map_kept] at hsource
    rw [textOf_map_kept, hsource]
  · rw [sound_append, sourceOf_map_kept, Nat.zero_add] at hsound
    have hforeign : ∃ c ∈ w, Foreign c := by
      have hfront := hsound.2.1.front
      rwa [← hsource, sourceOf_append, sourceOf_map_kept, List.take_left] at hfront
    rw [← hsource, textOf_append, sourceOf_append, textOf_map_kept, sourceOf_map_kept,
      List.append_assoc, List.append_assoc, startsDeclaration_append_iff hforeign,
      startsDeclaration_append_iff hforeign]

/-- A character that is in no target does not come in. -/
theorem Stands.notMem_text {c : Char} (ht : t.FreeOf c) {l : Line} (hl : Stands t code l)
    (hc : c ∉ code) : c ∉ l.text := by
  rw [← hl.source] at hc
  exact hl.sound.notMem_textOf (fun hP hold => hP.notMem ht hold) hc

end Passes

/-- **No line becomes a declaration, and none ceases to be one.** -/
theorem startsDeclaration_renamedLine (t : Table) (owner line : Text) :
    StartsDeclaration (renamedLine t owner line).1 ↔ StartsDeclaration line := by
  have h := (stands_renameLine t owner (lineParts line).code).startsDeclaration_iff
    ((lineParts line).comment ++ (lineParts line).ending)
  rwa [← List.append_assoc, ← List.append_assoc, append_lineParts, ← renamedLine_fst] at h

end Assembly

end Renaming
