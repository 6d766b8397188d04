import Renaming.Assembly.State
import Renaming.Proofs.Assembly.OneName

/-!
# `Proofs/Assembly/State` — the two forms of a line agree

A line that passes have gone over is kept as its pieces, or as its text with the spans that were
rewritten. **Carrying out the edits of a pass on the pieces and forgetting them is the same as
making these edits to the text** (`state_edit`): the same text, the same spans in the same order,
the same number of changed names. As a pass reads nothing else of a line than the text and the
spans, all passes agree (`state_renameLine`).

What has to be followed is the displacement. A replaced piece stands in the new text where the edits
in front of it have moved it, whether it was there before (`LineState.shift`) or is new
(`Sweep.delta`); the induction is on the run of edits, `Edited`, which cuts the pieces at each of
them.
-/

set_option autoImplicit false

namespace Renaming

/-! ## Spans in order -/

namespace Span

theorem le_of_stop_le {a b : Span} (ha : a.start ≤ a.stop) (hb : b.start ≤ b.stop)
    (h : a.stop ≤ b.start) : a.le b = true := by
  simp only [le, Bool.or_eq_true, Bool.and_eq_true, decide_eq_true_eq, beq_iff_eq]
  omega

theorem le_antisymm {a b : Span} (h : a.le b = true) (h' : b.le a = true) : a = b := by
  obtain ⟨i, j⟩ := a
  obtain ⟨k, l⟩ := b
  simp only [le, Bool.or_eq_true, Bool.and_eq_true, decide_eq_true_eq, beq_iff_eq] at h h'
  simp only [mk.injEq]
  omega

theorem le_trans {a b c : Span} (h : a.le b = true) (h' : b.le c = true) : a.le c = true := by
  simp only [le, Bool.or_eq_true, Bool.and_eq_true, decide_eq_true_eq, beq_iff_eq] at h h' ⊢
  omega

theorem le_total (a b : Span) : (a.le b || b.le a) = true := by
  simp only [le, Bool.or_eq_true, Bool.and_eq_true, decide_eq_true_eq, beq_iff_eq]
  omega

/-- Sorting finds the one order in which spans can be listed. -/
theorem mergeSort_eq_of_perm {l l' : List Span} (h : l.Perm l')
    (hl' : l'.Pairwise fun a b => a.le b = true) : l.mergeSort le = l' := by
  have hl : (l.mergeSort le).Pairwise fun a b => a.le b = true :=
    @List.pairwise_mergeSort _ le (fun _ _ _ => le_trans) le_total l
  exact ((List.mergeSort_perm l le).trans h).eq_of_pairwise (fun _ _ _ _ => le_antisymm) hl hl'

end Span

namespace Assembly

namespace Line

/-- A replaced name begins behind the pieces in front of it. -/
theorem le_of_mem_replacedFrom {i : Nat} {ps : List Piece} {s : Span}
    (h : s ∈ replacedFrom i ps) : i ≤ s.start ∧ s.start ≤ s.stop ∧
      s.stop ≤ i + (textOf ps).length := by
  induction ps generalizing i with
  | nil => cases h
  | cons p ps ih =>
    cases p with
    | kept c =>
      have := ih h
      rw [textOf_kept, List.length_cons]
      omega
    | replaced old new =>
      rw [textOf_replaced, List.length_append]
      rcases List.mem_cons.1 h with rfl | h
      · exact ⟨Nat.le_refl _, Nat.le_add_right .., by dsimp only; omega⟩
      · have := ih h
        omega

/-- The replaced names are listed in order. -/
theorem pairwise_replacedFrom (i : Nat) (ps : List Piece) :
    (replacedFrom i ps).Pairwise fun a b => a.le b = true := by
  induction ps generalizing i with
  | nil => exact .nil
  | cons p ps ih =>
    cases p with
    | kept c => exact ih (i + 1)
    | replaced old new =>
      refine List.pairwise_cons.2 ⟨fun s hs => ?_, ih _⟩
      obtain ⟨hstart, hle, -⟩ := le_of_mem_replacedFrom hs
      exact Span.le_of_stop_le (Nat.le_add_right ..) hle hstart

/-- Pieces that begin at another place. -/
theorem replacedFrom_moved {i j : Nat} {d : Int} (h : (j : Int) = i + d) (ps : List Piece) :
    replacedFrom j ps = (replacedFrom i ps).map (·.moved d) := by
  induction ps generalizing i j with
  | nil => rfl
  | cons p ps ih =>
    cases p with
    | kept c => exact @ih (i + 1) (j + 1) (by omega)
    | replaced old new =>
      rw [replacedFrom, replacedFrom, List.map_cons,
        @ih (i + new.length) (j + new.length) (by omega)]
      congr 1
      simp only [Span.moved, Span.mk.injEq]
      omega

end Line

open Line

/-! ## One pass -/

namespace LineState

theorem shift_cons_of_le {e : Edit} {es : List Edit} {p : Span} (h : e.span.stop ≤ p.start) :
    shift (e :: es) p = e.growth + shift es p := by
  simp [shift, h]

theorem shift_eq_zero {es : List Edit} {p : Span} (h : ∀ e ∈ es, p.start < e.span.stop) :
    shift es p = 0 := by
  have : (es.filter fun e => e.span.stop ≤ p.start) = [] := by
    rw [List.filter_eq_nil_iff]
    intro e he hle
    have := h e he
    simp only [decide_eq_true_eq] at hle
    omega
  rw [shift, this]
  rfl

end LineState

namespace Line

section Edited

variable {P : PieceProperty} {i k : Nat} {z : Zone} {es : List Edit} {ps ps' : List Piece}

theorem Edited.bounds (h : Edited P i k z es ps ps') :
    ∀ e ∈ es, i < e.span.start ∧ e.span.start ≤ e.span.stop := by
  induction h with
  | done => simp
  | @edit i k z A B B' c v e es hv hspan hP rest ih =>
    have hstart : e.span.start = i + (textOf A).length + 1 := congrArg Span.start hspan
    have hstop : e.span.stop = i + (textOf A).length + 1 + v.length := congrArg Span.stop hspan
    refine List.forall_mem_cons.2 ⟨by omega, fun e' he' => ?_⟩
    have := ih e' he'
    omega

/-- Edits are in order already. -/
theorem Edited.mergeSort_eq (h : Edited P i k z es ps ps') :
    es.mergeSort (fun a b => a.span.start ≤ b.span.start) = es := by
  refine List.mergeSort_of_pairwise ?_
  induction h with
  | done => exact .nil
  | @edit i k z A B B' c v e es hv hspan hP rest ih =>
    refine List.pairwise_cons.2 ⟨fun e' he' => ?_, ih⟩
    have := rest.bounds e' he'
    rw [hspan] at this ⊢
    simp only [decide_eq_true_eq] at this ⊢
    omega

open LineState

/-- One edit of kept characters, in a text that begins with what lies behind already. -/
theorem sweep_edit_kept {X A B : List Char} {c : Char} {v : Text} {e : Edit} {w : Sweep}
    {j : Nat} (hw : w.cursor = X.length) (hj : (j : Int) = X.length + w.delta)
    (hspan : e.span = ⟨X.length + A.length + 1, X.length + A.length + 1 + v.length⟩) :
    Sweep.edit (X ++ (A ++ c :: (v ++ B))) w e =
      { done := w.done ++ (A ++ c :: e.replacement)
        cursor := e.span.stop
        delta := w.delta + e.growth
        spans := w.spans ++ [⟨j + A.length + 1, j + A.length + 1 + e.replacement.length⟩]
        renamed := w.renamed + if e.replacement = v then 0 else 1 } := by
  have hkept : Span.part ⟨X.length, X.length + A.length + 1⟩ (X ++ (A ++ c :: (v ++ B))) =
      A ++ [c] := by
    rw [Span.part, List.drop_left, show A ++ c :: (v ++ B) = (A ++ [c]) ++ (v ++ B) by simp]
    exact List.take_left' (by simp; omega)
  have hold : Span.part ⟨X.length + A.length + 1, X.length + A.length + 1 + v.length⟩
      (X ++ (A ++ c :: (v ++ B))) = v := by
    rw [Span.part, show X ++ (A ++ c :: (v ++ B)) = (X ++ (A ++ [c])) ++ (v ++ B) by simp,
      List.drop_left' (by simp; omega)]
    exact List.take_left' (by simp)
  have hstart : ((X.length + A.length + 1 : Nat) + w.delta).toNat = j + A.length + 1 := by omega
  rw [Sweep.edit, hspan, hw]
  simp only [hkept, hold, hstart]
  simp

/-- The spans in front of the first edit are only displaced by the edits before. -/
theorem map_replacedFrom_front {i j : Nat} {d : Int} {A : List Piece} {es : List Edit}
    (hj : (j : Int) = i + d) (hes : ∀ e ∈ es, i + (textOf A).length < e.span.stop) :
    ((replacedFrom i A).map fun p => p.moved (d + shift es p)) = replacedFrom j A := by
  rw [replacedFrom_moved hj]
  refine List.map_congr_left fun p hp => ?_
  have hbounds := le_of_mem_replacedFrom hp
  rw [shift_eq_zero fun e he => by have := hes e he; omega, Int.add_zero]

theorem replacedFrom_replaced (j : Nat) (A B : List Piece) (c : Char) (old new : Text) :
    replacedFrom j (A ++ .kept c :: .replaced old new :: B) =
      replacedFrom j A ++ ⟨j + (textOf A).length + 1, j + (textOf A).length + 1 + new.length⟩ ::
        replacedFrom (j + (textOf A).length + 1 + new.length) B := by
  rw [replacedFrom_append, replacedFrom, replacedFrom]

/-- The spans that are there before a run of edits, cut at the first edit `e`. -/
theorem map_replacedFrom_edit {i j : Nat} {d : Int} {A B : List Piece} {c : Char} {v : Text}
    {e : Edit} {es : List Edit} (hj : (j : Int) = i + d)
    (hstop : e.span.stop = i + (textOf A).length + 1 + v.length)
    (hes : ∀ e' ∈ es, e.span.stop < e'.span.stop) :
    ((replacedFrom i (A ++ .kept c :: (v.map .kept ++ B))).map fun p =>
        p.moved (d + shift (e :: es) p)) =
      replacedFrom j A ++
        (replacedFrom e.span.stop B).map fun p => p.moved (d + e.growth + shift es p) := by
  rw [replacedFrom_append, replacedFrom, replacedFrom_append, replacedFrom_map_kept,
    textOf_map_kept, List.nil_append, ← hstop, List.map_append]
  refine congrArg₂ _ (map_replacedFrom_front hj ?_) (List.map_congr_left fun p hp => ?_)
  · refine List.forall_mem_cons.2 ⟨by omega, fun e' he' => ?_⟩
    have := hes e' he'
    omega
  · rw [shift_cons_of_le (le_of_mem_replacedFrom hp).1, Int.add_assoc]

theorem countP_kept (A B : List Piece) (c : Char) (v : Text) :
    (A ++ Piece.kept c :: (v.map .kept ++ B)).countP Piece.isRenamed =
      A.countP Piece.isRenamed + B.countP Piece.isRenamed := by
  have hv : (v.map Piece.kept).countP Piece.isRenamed = 0 := by
    rw [List.countP_eq_zero]
    simp [Piece.isRenamed]
  rw [List.countP_append, List.countP_cons_of_neg (by simp [Piece.isRenamed]), List.countP_append,
    hv, Nat.zero_add]

theorem countP_replaced (A B : List Piece) (c : Char) (old new : Text) :
    (A ++ Piece.kept c :: .replaced old new :: B).countP Piece.isRenamed =
      A.countP Piece.isRenamed + (B.countP Piece.isRenamed + if new = old then 0 else 1) := by
  rw [List.countP_append, List.countP_cons_of_neg (by simp [Piece.isRenamed]), List.countP_cons,
    Piece.isRenamed]
  by_cases h : new = old
  · simp [h]
  · simp [h, Ne.symm h]

/-- **A run of edits**, made to a text that begins with what lies behind already, leaves the text of
the new pieces and counts those that were renamed. The spans that were there before, displaced, and
those that the edits have written are the spans of the new pieces. -/
theorem Edited.foldl_edit (h : Edited P i k z es ps ps') (X : Text) (w : Sweep) (j : Nat)
    (hX : X.length = i) (hw : w.cursor = i) (hj : (j : Int) = i + w.delta) :
    ∃ w', es.foldl (Sweep.edit (X ++ textOf ps)) w = w' ∧
      w'.done ++ (X ++ textOf ps).drop w'.cursor = w.done ++ textOf ps' ∧
      w'.renamed + ps.countP Piece.isRenamed = w.renamed + ps'.countP Piece.isRenamed ∧
      (((replacedFrom i ps).map fun p => p.moved (w.delta + shift es p)) ++ w'.spans).Perm
        (replacedFrom j ps' ++ w.spans) := by
  induction h generalizing X w j with
  | done =>
    refine ⟨w, rfl, by rw [hw, ← hX, List.drop_left], rfl, ?_⟩
    rw [map_replacedFrom_front hj (by simp)]
  | @edit i k z A B B' c v e es hv hspan hP rest ih =>
    subst hX
    have hstop : e.span.stop = X.length + (textOf A).length + 1 + v.length :=
      congrArg Span.stop hspan
    have hgrowth : e.growth = e.replacement.length - v.length := by
      rw [Edit.growth, hspan]
      dsimp only
      omega
    have htext : X ++ textOf (A ++ .kept c :: (v.map .kept ++ B)) =
        (X ++ (textOf A ++ c :: v)) ++ textOf B := by simp
    have hedit := @sweep_edit_kept X (textOf A) (textOf B) c v e w j hw hj hspan
    obtain ⟨w', hfold, hdone, hrenamed, hspans⟩ := ih (X ++ (textOf A ++ c :: v))
      (Sweep.edit (X ++ (textOf A ++ c :: (v ++ textOf B))) w e)
      (j + (textOf A).length + 1 + e.replacement.length)
      (by simp only [List.length_append, List.length_cons]; omega) (by rw [hedit])
      (by rw [hedit]; dsimp only; omega)
    rw [← htext] at hfold hdone
    refine ⟨w', ?_, ?_, ?_, ?_⟩
    · rw [List.foldl_cons, ← hfold]
      simp
    · rw [hdone, hedit]
      simp
    · rw [hedit] at hrenamed
      rw [countP_kept, countP_replaced]
      dsimp only at hrenamed
      omega
    · rw [hedit] at hspans
      have hes : ∀ e' ∈ es, e.span.stop < e'.span.stop := fun e' he' => by
        have := rest.bounds e' he'
        omega
      rw [map_replacedFrom_edit hj hstop hes, replacedFrom_replaced, List.append_assoc,
        List.append_assoc]
      refine (hspans.trans ?_).append_left _
      rw [← List.append_assoc]
      exact List.perm_append_singleton _ _

/-- **Carrying out the edits of a pass on the pieces of a line is making them to its text.** -/
theorem state_edit {l : Line} (h : Edited P 0 0 z es l.pieces (l.edit es).pieces) :
    (l.edit es).state = l.state.apply es := by
  by_cases hes : es = []
  · subst hes
    rfl
  · obtain ⟨w, hfold, hdone, hrenamed, hspans⟩ :=
      h.foldl_edit [] { renamed := l.renamed } 0 rfl rfl rfl
    have hfold' : es.foldl (Sweep.edit l.state.text) { renamed := l.state.renamed } = w := hfold
    have hcount : w.renamed + l.renamed = l.renamed + (l.edit es).renamed := hrenamed
    have hsorted : (((replacedFrom 0 l.pieces).map fun p => p.moved (shift es p)) ++
        w.spans).mergeSort Span.le = replacedFrom 0 (l.edit es).pieces := by
      refine Span.mergeSort_eq_of_perm ?_ (pairwise_replacedFrom 0 _)
      simpa using hspans
    rw [LineState.apply, if_neg hes]
    dsimp only
    rw [h.mergeSort_eq, hfold', Line.state, LineState.mk.injEq]
    exact ⟨hdone.symm, hsorted.symm, by omega⟩

end Edited

end Line

/-! ## All passes -/

section Passes

variable (t : Table) (owner code : Text) (l : Line)

theorem state_fieldPass :
    (fieldPass t owner (.ofText code)).state =
      (Line.ofText code).state.run (fieldPassEdits t owner) :=
  state_edit (edited_edit (pairwise_fieldPass ..) fun _ => placed_of_mem_fieldPass)

/-- The second pass, which finds a line that the first has left alone, or no method in it. -/
theorem state_methodPass :
    (methodPass t owner (fieldPass t owner (.ofText code))).state =
      (fieldPass t owner (.ofText code)).state.run (methodPassEdits t owner) := by
  rcases fieldPass_eq_or t owner code with h | h
  · rw [h]
    exact state_edit (edited_edit (pairwise_methodPass ..) fun _ => placed_of_mem_methodPass)
  · have hedits : ∀ isFree, methodPassEdits t owner (fieldPass t owner (.ofText code)).text isFree =
        [] := fun isFree => by rw [methodPassEdits, h]
    rw [methodPass_of_none h, LineState.run, Line.state, hedits]
    rfl

theorem state_referencePass :
    (referencePass t l).state = l.state.run (referencePassEdits t) :=
  state_edit (edited_referencePass t l)

theorem state_typePass : (typePass t l).state = l.state.run (typePassEdits t) :=
  state_edit (edited_typePass t l)

theorem state_ofText : (Line.ofText code).state = { text := code } := by
  rw [Line.state, text_ofText]
  simp [ofText, Line.renamed, List.countP_eq_zero, Piece.isRenamed]

/-- **All passes on the pieces of a line are all passes on its text.** -/
theorem state_renameLine : (renameLine t owner code).state = LineState.rename t owner code := by
  rw [renameLine, state_typePass, state_referencePass, state_methodPass, state_fieldPass,
    state_ofText, LineState.rename]
  simp only [List.foldl_cons, List.foldl_nil]

/-- A renamed line, told by the passes on its text alone. -/
theorem renamedLine_eq (line : Text) :
    renamedLine t owner line =
      ((LineState.rename t owner (lineParts line).code).text ++ (lineParts line).comment ++
        (lineParts line).ending, (LineState.rename t owner (lineParts line).code).renamed) := by
  rw [renamedLine, ← state_renameLine, Line.state]

end Passes

end Assembly

end Renaming
