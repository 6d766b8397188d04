import Renaming.Assembly.Pass
import Renaming.Proofs.Assembly.Zone

/-!
# `Proofs/Assembly/Place` — places of a line while it is edited

A pass reads places off the text a line has *now*; what it does is to be told about the text the
line had *at first*. Both texts are read off the same pieces, so a place is carried over by cutting
the pieces there. Two facts make that possible:

* a part of the text that shares no place with a replaced name consists of kept characters
  (`exists_kept_of_free`), so it reads the same in the source;
* edits of kept characters, in order and with a character between each two of them, replace just
  these characters (`edited_editFrom`).

`Edited` records such a run of edits; whatever holds of each edit then holds of each replaced piece
(`Edited.sound`).
-/

set_option autoImplicit false

namespace Renaming

namespace Assembly

/-- A text, which begins at place `i`, with edits applied from left to right. -/
def applyFrom (i : Nat) : List Edit → Text → Text
  | [], t => t
  | e :: es, t =>
    t.take (e.span.start - i) ++
      (e.replacement ++ applyFrom e.span.stop es (t.drop (e.span.stop - i)))

/-- A text with edits applied. They are in order and apart from each other. -/
def applyEdits (es : List Edit) (t : Text) : Text := applyFrom 0 es t

namespace Line

/-! ## The two texts of pieces -/

def textOf (ps : List Piece) : Text := ps.flatMap Piece.text

def sourceOf (ps : List Piece) : Text := ps.flatMap Piece.source

@[simp] theorem textOf_nil : textOf [] = [] := rfl

@[simp] theorem sourceOf_nil : sourceOf [] = [] := rfl

@[simp] theorem textOf_kept (c : Char) (ps : List Piece) :
    textOf (.kept c :: ps) = c :: textOf ps := rfl

@[simp] theorem sourceOf_kept (c : Char) (ps : List Piece) :
    sourceOf (.kept c :: ps) = c :: sourceOf ps := rfl

@[simp] theorem textOf_replaced (old new : Text) (ps : List Piece) :
    textOf (.replaced old new :: ps) = new ++ textOf ps := rfl

@[simp] theorem sourceOf_replaced (old new : Text) (ps : List Piece) :
    sourceOf (.replaced old new :: ps) = old ++ sourceOf ps := rfl

@[simp] theorem textOf_append (A B : List Piece) : textOf (A ++ B) = textOf A ++ textOf B :=
  List.flatMap_append

@[simp] theorem sourceOf_append (A B : List Piece) :
    sourceOf (A ++ B) = sourceOf A ++ sourceOf B := List.flatMap_append

@[simp] theorem textOf_map_kept (w : Text) : textOf (w.map .kept) = w := by
  induction w with
  | nil => rfl
  | cons c r ih => rw [List.map_cons, textOf_kept, ih]

@[simp] theorem sourceOf_map_kept (w : Text) : sourceOf (w.map .kept) = w := by
  induction w with
  | nil => rfl
  | cons c r ih => rw [List.map_cons, sourceOf_kept, ih]

/-! ## Parts that hold no replaced name -/

theorem replacedFrom_append (i : Nat) (A B : List Piece) :
    replacedFrom i (A ++ B) = replacedFrom i A ++ replacedFrom (i + (textOf A).length) B := by
  induction A generalizing i with
  | nil => rfl
  | cons p A ih =>
    cases p with
    | kept c =>
      rw [List.cons_append, replacedFrom, replacedFrom, ih, textOf_kept, List.length_cons]
      congr 2
      omega
    | replaced old new =>
      rw [List.cons_append, replacedFrom, replacedFrom, ih, textOf_replaced, List.length_append,
        List.cons_append]
      congr 3
      omega

@[simp] theorem replacedFrom_map_kept (i : Nat) (w : Text) : replacedFrom i (w.map .kept) = [] := by
  induction w generalizing i with
  | nil => rfl
  | cons c r ih => exact ih (i + 1)

/-- The part that has begun: as no replaced name lies in it, not even an empty one, it is made of
kept characters. -/
theorem exists_kept_of_begun {ps : List Piece} {w b : Text} {j k : Nat} (hj : j < k)
    (h : textOf ps = w ++ b)
    (hfree : ∀ s ∈ replacedFrom k ps, Span.overlaps ⟨j, k + w.length⟩ s = false) :
    ∃ B, ps = w.map .kept ++ B ∧ textOf B = b := by
  induction w generalizing ps k with
  | nil => exact ⟨ps, rfl, h⟩
  | cons c r ih =>
    cases ps with
    | nil => cases h
    | cons p ps =>
      cases p with
      | replaced old new =>
        have := hfree _ List.mem_cons_self
        simp only [Span.overlaps, List.length_cons, Bool.and_eq_false_iff,
          decide_eq_false_iff_not] at this
        omega
      | kept d =>
        rw [textOf_kept, List.cons_append, List.cons.injEq] at h
        obtain ⟨rfl, h⟩ := h
        obtain ⟨B, rfl, hB⟩ := ih (k := k + 1) (by omega) h fun s hs => by
          rw [show k + 1 + r.length = k + (d :: r).length by rw [List.length_cons]; omega]
          exact hfree s hs
        exact ⟨B, rfl, hB⟩

/-- **A part of the text that shares no place with a replaced name is made of kept characters.** -/
theorem exists_kept_of_free {ps : List Piece} {a w b : Text} {k : Nat} (hw : w ≠ [])
    (h : textOf ps = a ++ (w ++ b))
    (hfree : ∀ s ∈ replacedFrom k ps,
      Span.overlaps ⟨k + a.length, k + a.length + w.length⟩ s = false) :
    ∃ A B, ps = A ++ (w.map .kept ++ B) ∧ textOf A = a ∧ textOf B = b := by
  have hpos : 0 < w.length := List.length_pos_iff.2 hw
  induction ps generalizing a k with
  | nil => simp [hw] at h
  | cons p ps ih =>
    cases p with
    | kept d =>
      cases a with
      | nil =>
        cases w with
        | nil => exact absurd rfl hw
        | cons c r =>
          rw [textOf_kept, List.nil_append, List.cons_append, List.cons.injEq] at h
          obtain ⟨rfl, h⟩ := h
          obtain ⟨B, rfl, hB⟩ := exists_kept_of_begun (Nat.lt_succ_self k) h fun s hs => by
            rw [show k + 1 + r.length = k + [].length + (d :: r).length by
              simp only [List.length_cons, List.length_nil]; omega]
            exact hfree s hs
          exact ⟨[], B, rfl, rfl, hB⟩
      | cons c a =>
        rw [textOf_kept, List.cons_append, List.cons.injEq] at h
        obtain ⟨rfl, h⟩ := h
        obtain ⟨A, B, rfl, hA, hB⟩ := ih (k := k + 1) h fun s hs => by
          rw [show k + 1 + a.length = k + (d :: a).length by rw [List.length_cons]; omega]
          exact hfree s hs
        exact ⟨.kept d :: A, B, rfl, by rw [textOf_kept, hA], hB⟩
    | replaced old new =>
      have hlen : new.length ≤ a.length := by
        have := hfree _ List.mem_cons_self
        simp only [Span.overlaps, Bool.and_eq_false_iff, decide_eq_false_iff_not] at this
        omega
      rw [textOf_replaced] at h
      obtain ⟨a, rfl⟩ : ∃ a', a = new ++ a' :=
        (List.prefix_of_prefix_length_le ⟨_, h⟩ (List.prefix_append a _) hlen).imp
          fun _ => Eq.symm
      rw [List.append_assoc] at h
      obtain ⟨A, B, rfl, hA, hB⟩ := ih (k := k + new.length) (List.append_cancel_left h)
        fun s hs => by
          rw [show k + new.length + a.length = k + (new ++ a).length by
            rw [List.length_append]; omega]
          exact hfree s (List.mem_cons_of_mem _ hs)
      exact ⟨.replaced old new :: A, B, rfl, by rw [textOf_replaced, hA], hB⟩

/-! ## Edits of kept characters -/

/-- A property of replaced pieces: the place and the zone of the piece in the source, what it said
and what it says. -/
abbrev PieceProperty := Nat → Zone → Text → Text → Prop

/-- The edit replaces kept characters, in front of which another one stands, and has the
property. -/
def Placed (P : PieceProperty) (ps : List Piece) (e : Edit) : Prop :=
  ∃ A c w B, ps = A ++ .kept c :: (w.map .kept ++ B) ∧ w ≠ [] ∧
    e.span = ⟨(textOf A).length + 1, (textOf A).length + 1 + w.length⟩ ∧
    P ((sourceOf A).length + 1) (Zone.code.after (sourceOf A ++ [c])) w e.replacement

theorem Placed.start_pos {P : PieceProperty} {ps : List Piece} {e : Edit} (h : Placed P ps e) :
    0 < e.span.start := by
  obtain ⟨A, c, w, B, -, -, hspan, -⟩ := h
  rw [hspan]
  exact Nat.succ_pos _

/-- Edits carried out: the place in the text and in the source, the zone, the edits, and the pieces
before and after. -/
inductive Edited (P : PieceProperty) :
    Nat → Nat → Zone → List Edit → List Piece → List Piece → Prop
  | done {i k : Nat} {z : Zone} {ps : List Piece} : Edited P i k z [] ps ps
  | edit {i k : Nat} {z : Zone} {A B B' : List Piece} {c : Char} {w : Text} {e : Edit}
      {es : List Edit} (hw : w ≠ [])
      (hspan : e.span = ⟨i + (textOf A).length + 1, i + (textOf A).length + 1 + w.length⟩)
      (hP : P (k + (sourceOf A).length + 1) (z.after (sourceOf A ++ [c])) w e.replacement)
      (rest : Edited P e.span.stop (k + (sourceOf A).length + 1 + w.length)
        (z.after (sourceOf A ++ c :: w)) es B B') :
      Edited P i k z (e :: es) (A ++ .kept c :: (w.map .kept ++ B))
        (A ++ .kept c :: .replaced w e.replacement :: B')

theorem split_zero (ps : List Piece) : split 0 ps = ([], ps) := by
  cases ps <;> simp [split]

/-- Cutting behind a kept character. -/
theorem split_kept (A : List Piece) (c : Char) (B : List Piece) :
    split ((textOf A).length + 1) (A ++ .kept c :: B) = (A ++ [Piece.kept c], B) := by
  induction A with
  | nil =>
    rw [List.nil_append, split, if_neg (by simp [Piece.text])]
    simp [Piece.text, split_zero]
  | cons p A ih =>
    have hlen : (textOf (p :: A)).length = p.text.length + (textOf A).length := by
      simp [textOf]
    rw [List.cons_append, split, if_neg (by omega), hlen,
      show p.text.length + (textOf A).length + 1 - p.text.length = (textOf A).length + 1 by omega,
      ih]
    rfl

theorem split_map_kept (w : Text) (B : List Piece) :
    split w.length (w.map .kept ++ B) = (w.map .kept, B) := by
  induction w with
  | nil => exact split_zero B
  | cons c r ih =>
    rw [List.map_cons, List.cons_append, split, if_neg (by simp [Piece.text])]
    simp [Piece.text, ih]

/-- Carrying out an edit of kept characters. -/
theorem editFrom_kept {i : Nat} {A B : List Piece} {c : Char} {w : Text} {e : Edit}
    {es : List Edit}
    (hspan : e.span = ⟨i + (textOf A).length + 1, i + (textOf A).length + 1 + w.length⟩) :
    editFrom i (e :: es) (A ++ .kept c :: (w.map .kept ++ B)) =
      A ++ .kept c :: .replaced w e.replacement :: editFrom e.span.stop es B := by
  have h₁ : e.span.start - i = (textOf A).length + 1 := by rw [hspan]; dsimp only; omega
  have h₂ : e.span.stop - e.span.start = w.length := by rw [hspan]; dsimp only; omega
  have hw : (w.map Piece.kept).flatMap Piece.source = w := sourceOf_map_kept w
  rw [editFrom, h₁, h₂, split_kept]
  simp only [split_map_kept, hw]
  simp

theorem editFrom_editAt {i j : Nat} {A B : List Piece} {c : Char} {w new : Text} {es : List Edit}
    (hj : j = i + (textOf A).length + 1) :
    editFrom i (editAt j w.length new :: es) (A ++ .kept c :: (w.map .kept ++ B)) =
      A ++ .kept c :: .replaced w new :: editFrom (j + w.length) es B := by
  subst hj
  exact editFrom_kept rfl

theorem split_append_of_lt {A : List Piece} {n : Nat} (h : (textOf A).length < n)
    (B : List Piece) :
    split n (A ++ B) = (A ++ (split (n - (textOf A).length) B).1,
      (split (n - (textOf A).length) B).2) := by
  induction A generalizing n with
  | nil => rfl
  | cons p A ih =>
    have hlen : (textOf (p :: A)).length = p.text.length + (textOf A).length := by
      simp [textOf]
    rw [hlen] at h ⊢
    rw [List.cons_append, split, if_neg (by omega), ih (by omega), Nat.sub_sub]
    rfl

/-- Pieces in front of the first edit stay. -/
theorem editFrom_append {i : Nat} {es : List Edit} {A : List Piece}
    (h : ∀ e ∈ es, i + (textOf A).length < e.span.start) (B : List Piece) :
    editFrom i es (A ++ B) = A ++ editFrom (i + (textOf A).length) es B := by
  cases es with
  | nil => rfl
  | cons e es =>
    have he := h e List.mem_cons_self
    rw [editFrom, split_append_of_lt (by omega), editFrom, Nat.sub_sub]
    simp

/-- Edits inside of kept characters, then edits behind them. -/
theorem editFrom_append_of_within {i : Nat} {es es' : List Edit} {w : Text}
    (hes : es.Pairwise fun a b => a.span.stop < b.span.start)
    (h : ∀ e ∈ es, i ≤ e.span.start ∧ e.span.start ≤ e.span.stop ∧ e.span.stop ≤ i + w.length)
    (h' : ∀ e ∈ es', i + w.length < e.span.start) (B : List Piece) :
    editFrom i (es ++ es') (w.map .kept ++ B) =
      editFrom i es (w.map .kept) ++ editFrom (i + w.length) es' B := by
  induction es generalizing i w with
  | nil =>
    have := @editFrom_append i es' (w.map .kept) (by simpa using h') B
    rwa [textOf_map_kept] at this
  | cons e es ih =>
    obtain ⟨hstart, hle, hstop⟩ := h e List.mem_cons_self
    rw [List.pairwise_cons] at hes
    obtain ⟨u, v, r, rfl, hu, hv⟩ : ∃ u v r : Text, w = u ++ (v ++ r) ∧
        u.length = e.span.start - i ∧ v.length = e.span.stop - e.span.start := by
      refine ⟨w.take (e.span.start - i),
        (w.drop (e.span.start - i)).take (e.span.stop - e.span.start),
        (w.drop (e.span.start - i)).drop (e.span.stop - e.span.start), ?_, ?_, ?_⟩
      · rw [List.take_append_drop, List.take_append_drop]
      · rw [List.length_take]
        omega
      · rw [List.length_take, List.length_drop]
        omega
    rw [List.length_append, List.length_append] at hstop h'
    have hlen : e.span.stop + r.length = i + (u ++ (v ++ r)).length := by
      rw [List.length_append, List.length_append]
      omega
    have hrest := @ih e.span.stop r hes.2 (fun a ha => ?_) (fun a ha => ?_)
    · rw [List.cons_append, List.map_append, List.map_append, List.append_assoc, List.append_assoc,
        editFrom, editFrom, ← hu, ← hv]
      simp only [split_map_kept]
      rw [hrest, hlen]
      simp
    · have hbehind := hes.1 a ha
      have := h a (List.mem_cons_of_mem _ ha)
      rw [List.length_append, List.length_append] at this
      omega
    · have := h' a ha
      omega

/-- A part of pieces that begins behind their prefix `X` begins in the others. -/
theorem exists_append_of_length_lt {X ps A : List Piece} {c : Char} {B : List Piece}
    (h : X ++ ps = A ++ .kept c :: B) (hlt : (textOf X).length < (textOf A).length + 1) :
    ∃ A', A = X ++ A' ∧ ps = A' ++ .kept c :: B := by
  rcases List.append_eq_append_iff.1 h with ⟨A', rfl, h'⟩ | ⟨X', rfl, h'⟩
  · exact ⟨A', rfl, h'⟩
  · cases X' with
    | nil => exact ⟨[], by simp, by simpa using h'.symm⟩
    | cons p X' =>
      rw [List.cons_append, List.cons.injEq] at h'
      obtain ⟨rfl, -⟩ := h'
      simp only [textOf_append, textOf_kept, List.length_append, List.length_cons] at hlt
      omega

/-- **Edits of kept characters, in order, replace these characters and nothing else.** The
induction is on the edits; `X` are the pieces that lie behind already, as they were. -/
theorem edited_editFrom {P : PieceProperty} {es : List Edit} {X ps : List Piece}
    (hes : es.Pairwise fun a b => a.span.stop < b.span.start)
    (h : ∀ e ∈ es, (textOf X).length < e.span.start ∧ Placed P (X ++ ps) e) :
    Edited P (textOf X).length (sourceOf X).length (Zone.code.after (sourceOf X)) es ps
      (editFrom (textOf X).length es ps) := by
  induction es generalizing X ps with
  | nil => exact .done
  | cons e es ih =>
    obtain ⟨hlt, A, c, w, B, hps, hw, hspan, hP⟩ := h e List.mem_cons_self
    rw [List.pairwise_cons] at hes
    obtain ⟨A, rfl, rfl⟩ := exists_append_of_length_lt hps (by rw [hspan] at hlt; exact hlt)
    have hspan' : e.span = ⟨(textOf X).length + (textOf A).length + 1,
        (textOf X).length + (textOf A).length + 1 + w.length⟩ := by
      rw [hspan, textOf_append, List.length_append]
    rw [editFrom_kept hspan']
    have hP' : P ((sourceOf X).length + (sourceOf A).length + 1)
        ((Zone.code.after (sourceOf X)).after (sourceOf A ++ [c])) w e.replacement := by
      rw [← Zone.after_append, ← List.append_assoc, ← sourceOf_append, ← List.length_append,
        ← sourceOf_append]
      exact hP
    refine .edit hw hspan' hP' ?_
    have hstop : e.span.stop = (textOf (X ++ A ++ .kept c :: w.map .kept)).length := by
      rw [hspan]; simp only [textOf_append, textOf_kept, textOf_map_kept, List.length_append,
        List.length_cons]; omega
    have hsource : sourceOf (X ++ A ++ .kept c :: w.map .kept) =
        sourceOf X ++ (sourceOf A ++ c :: w) := by simp
    have hrest := @ih (X ++ A ++ .kept c :: w.map .kept) B hes.2 fun e' he' => by
      refine ⟨?_, ?_⟩
      · rw [← hstop]; exact hes.1 e' he'
      · have := (h e' (List.mem_cons_of_mem _ he')).2
        simpa using this
    rw [← hstop, hsource, Zone.after_append] at hrest
    rw [show (sourceOf X).length + (sourceOf A).length + 1 + w.length =
      (sourceOf X ++ (sourceOf A ++ c :: w)).length by
        simp only [List.length_append, List.length_cons]; omega]
    exact hrest

theorem edited_edit {P : PieceProperty} {l : Line} {es : List Edit}
    (hes : es.Pairwise fun a b => a.span.stop < b.span.start)
    (h : ∀ e ∈ es, Placed P l.pieces e) : Edited P 0 0 .code es l.pieces (l.edit es).pieces :=
  edited_editFrom (X := []) hes fun e he => ⟨(h e he).start_pos, h e he⟩

/-! ## Properties of all replaced pieces -/

/-- Every replaced piece has the property at its place in the source. -/
def Sound (P : PieceProperty) : Nat → Zone → List Piece → Prop
  | _, _, [] => True
  | k, z, .kept c :: ps => Sound P (k + 1) (z.next c) ps
  | k, z, .replaced old new :: ps => P k z old new ∧ Sound P (k + old.length) (z.after old) ps

theorem sound_append {P : PieceProperty} {k : Nat} {z : Zone} {A B : List Piece} :
    Sound P k z (A ++ B) ↔
      Sound P k z A ∧ Sound P (k + (sourceOf A).length) (z.after (sourceOf A)) B := by
  induction A generalizing k z with
  | nil => simp [Sound]
  | cons p A ih =>
    cases p with
    | kept c =>
      rw [List.cons_append, Sound, Sound, ih, sourceOf_kept, List.length_cons, Zone.after_cons,
        show k + 1 + (sourceOf A).length = k + ((sourceOf A).length + 1) by omega]
    | replaced old new =>
      rw [List.cons_append, Sound, Sound, ih, sourceOf_replaced, List.length_append,
        Zone.after_append, and_assoc, Nat.add_assoc]

/-- In a text without replaced pieces there is nothing to show. -/
theorem sound_map_kept (P : PieceProperty) (k : Nat) (z : Zone) (w : Text) :
    Sound P k z (w.map .kept) := by
  induction w generalizing k z with
  | nil => trivial
  | cons c r ih => exact ih (k + 1) (z.next c)

/-- **What holds of each edit and of each piece replaced before holds of each replaced piece.** -/
theorem Edited.sound {P : PieceProperty} {i k : Nat} {z : Zone} {es : List Edit}
    {ps ps' : List Piece} (h : Edited P i k z es ps ps') (hps : Sound P k z ps) :
    Sound P k z ps' := by
  induction h with
  | done => exact hps
  | @edit i k z A B B' c w e es hw hspan hP rest ih =>
    rw [sound_append] at hps ⊢
    obtain ⟨hA, hB⟩ := hps
    refine ⟨hA, ?_⟩
    rw [Sound] at hB ⊢
    rw [Sound]
    have hz : (z.after (sourceOf A)).next c = z.after (sourceOf A ++ [c]) := by simp
    have hzw : ((z.after (sourceOf A)).next c).after w = z.after (sourceOf A ++ c :: w) := by simp
    refine ⟨hz ▸ hP, ?_⟩
    rw [hzw]
    refine ih ?_
    rw [sound_append, sourceOf_map_kept, hzw] at hB
    exact hB.2

theorem Sound.mono {P Q : PieceProperty} (h : ∀ {k z old new}, P k z old new → Q k z old new)
    {k : Nat} {z : Zone} {ps : List Piece} (hps : Sound P k z ps) : Sound Q k z ps := by
  induction ps generalizing k z with
  | nil => trivial
  | cons p ps ih =>
    cases p with
    | kept c => exact ih hps
    | replaced old new => exact ⟨h hps.1, ih hps.2⟩

/-- A character that comes into no name does not come into the text. -/
theorem Sound.notMem_textOf {P : PieceProperty} {c : Char}
    (hP : ∀ {k z old new}, P k z old new → c ∉ old → c ∉ new) {k : Nat} {z : Zone}
    {ps : List Piece} (h : Sound P k z ps) (hc : c ∉ sourceOf ps) : c ∉ textOf ps := by
  induction ps generalizing k z with
  | nil => exact hc
  | cons p ps ih =>
    cases p with
    | kept d =>
      rw [sourceOf_kept, List.mem_cons, not_or] at hc
      rw [textOf_kept, List.mem_cons, not_or]
      exact ⟨hc.1, ih h hc.2⟩
    | replaced old new =>
      rw [sourceOf_replaced, List.mem_append, not_or] at hc
      rw [textOf_replaced, List.mem_append, not_or]
      exact ⟨hP h.1 hc.1, ih h.2 hc.2⟩

/-- Pieces are kept characters, or begin with kept characters and a replaced name. -/
theorem eq_map_kept_or (ps : List Piece) : (∃ w : Text, ps = w.map .kept) ∨
    ∃ (w : Text) (old new : Text) (B : List Piece), ps = w.map .kept ++ .replaced old new :: B := by
  induction ps with
  | nil => exact .inl ⟨[], rfl⟩
  | cons p ps ih =>
    cases p with
    | replaced old new => exact .inr ⟨[], old, new, ps, rfl⟩
    | kept c =>
      rcases ih with ⟨w, rfl⟩ | ⟨w, old, new, B, rfl⟩
      · exact .inl ⟨c :: w, rfl⟩
      · exact .inr ⟨c :: w, old, new, B, rfl⟩

end Line

end Assembly

end Renaming
