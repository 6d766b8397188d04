import Renaming.Proofs.Assembly.Retype

/-!
# `Proofs/Assembly/Relink` — what the pass over references leaves behind

The pass over references finds them in the line as the passes over definitions have left it. There
a class of a signature may be replaced already, and the test passes over every reference with such a
class. Still it goes from reference to reference as it would in the line at first, since both are
read in lockstep, and so the names it replaces sit where they should: an owner, which may hold more
characters than a class, is a class here, because it was one in the reference at first.
-/

set_option autoImplicit false

namespace Renaming

namespace Assembly

open Line

/-- The edits for a reference that was found, if the test lets it pass. -/
def referenceEdit (free : Span → Bool) (t : Table) (x : Nat × Reference × Nat) : List Edit :=
  if free ⟨x.1, x.1 + x.2.2⟩ then referenceEdits t x.1 x.2.1 else []

theorem lt_start_of_mem_referenceEdit (free : Span → Bool) (t : Table) (x : Nat × Reference × Nat) :
    ∀ e ∈ referenceEdit free t x, x.1 < e.span.start := by
  intro e he
  unfold referenceEdit at he
  split at he
  · simp only [referenceEdits, List.mem_cons, List.not_mem_nil, or_false] at he
    rcases he with rfl | rfl
    · exact Nat.lt_succ_self _
    · simp only [editAt]
      omega
  · cases he

/-- The pieces of a reference with its owner and its name renamed. -/
def linkedPieces (t : Table) (r : Reference) (signature : Text) : List Piece :=
  .kept 'L' :: .replaced r.owner (t.mapClass r.owner) :: .kept ';' :: .kept '-' :: .kept '>' ::
    .replaced r.name (mapReference t r) :: signature.map .kept

section Pass

variable {free : Span → Bool} {t : Table}

/-- The pass over references, from a place on. -/
abbrev linked (free : Span → Bool) (t : Table) (i : Nat) (ps : List Piece) : List Piece :=
  passFrom reference? (referenceEdit free t) i ps

theorem referencePass_pieces (t : Table) (l : Line) :
    (referencePass t l).pieces = linked l.isFree t 0 l.pieces := rfl

/-- Pieces in which there is nothing to edit. -/
theorem linked_append (X A B : List Piece)
    (h : (scanFrom reference? 0 (textOf X).length (textOf A ++ textOf B)).flatMap
        (referenceEdit free t) =
      (scanFrom reference? 0 ((textOf X).length + (textOf A).length) (textOf B)).flatMap
        (referenceEdit free t)) :
    linked free t (textOf X).length (A ++ B) = A ++ linked free t (textOf (X ++ A)).length B := by
  rw [textOf_append, List.length_append]
  exact passFrom_append (lt_start_of_mem_referenceEdit free t) h

theorem editFrom_referenceEdits (t : Table) {i : Nat} {r : Reference} {signature : Text}
    {es : List Edit} (hes : ∀ e ∈ es, i + (r.text signature).length < e.span.start)
    (B : List Piece) :
    editFrom i (referenceEdits t i r ++ es) ((r.text signature).map .kept ++ B) =
      linkedPieces t r signature ++ editFrom (i + (r.text signature).length) es B := by
  have hlen := Reference.length_text r signature
  have hpieces : (r.text signature).map .kept ++ B =
      [] ++ Piece.kept 'L' :: (r.owner.map .kept ++ ([Piece.kept ';', .kept '-'] ++
        Piece.kept '>' :: (r.name.map .kept ++ (signature.map .kept ++ B)))) := by
    simp [Reference.text]
  have howner : i + 1 = i + (textOf []).length + 1 := rfl
  have hname : i + r.owner.length + 4 =
      i + 1 + r.owner.length + (textOf [Piece.kept ';', .kept '-']).length + 1 := by
    simp only [textOf_kept, textOf_nil, List.length_cons, List.length_nil]
    omega
  have hstop : i + r.owner.length + 4 + r.name.length + (textOf (signature.map .kept)).length =
      i + (r.text signature).length := by
    rw [textOf_map_kept]
    omega
  have hrest := @editFrom_append (i + r.owner.length + 4 + r.name.length) es (signature.map .kept)
    (fun e he => by rw [hstop]; exact hes e he) B
  rw [hstop] at hrest
  rw [hpieces, referenceEdits, List.cons_append, List.cons_append, List.nil_append,
    editFrom_editAt howner, editFrom_editAt hname, hrest]
  simp [linkedPieces]

/-- A reference that is renamed. -/
theorem linked_found {X : List Piece} {r : Reference} {signature : Text}
    (hr : IsReference r signature)
    (hfree : free ⟨(textOf X).length, (textOf X).length + (r.text signature).length⟩ = true)
    (B : List Piece) :
    linked free t (textOf X).length ((r.text signature).map .kept ++ B) =
      linkedPieces t r signature ++
        linked free t (textOf (X ++ (r.text signature).map .kept)).length B := by
  have hlen : (textOf (X ++ (r.text signature).map .kept)).length =
      (textOf X).length + (r.text signature).length := by
    rw [textOf_append, textOf_map_kept, List.length_append]
  have hedit : referenceEdit free t ((textOf X).length, r, (r.text signature).length) =
      referenceEdits t (textOf X).length r := by
    simp [referenceEdit, hfree]
  rw [hlen, linked, passFrom, textOf_append, textOf_map_kept, scanFrom_reference_found hr,
    List.flatMap_cons, hedit]
  exact editFrom_referenceEdits t
    (fun e he => lt_start_of_mem_edits (lt_start_of_mem_referenceEdit free t) he) B

/-- What a free part that begins with a kept character is made of. -/
theorem exists_kept_of_isFree {l : Line} {X ps : List Piece} {c : Char} {w b : Text}
    (hl : l.pieces = X ++ .kept c :: ps) (ht : textOf ps = w ++ b)
    (hfree : l.isFree ⟨(textOf X).length, (textOf X).length + (w.length + 1)⟩ = true) :
    ∃ B, ps = w.map .kept ++ B ∧ textOf B = b := by
  simp only [isFree, blocked, List.any_append, Bool.not_eq_true', Bool.or_eq_false_iff] at hfree
  refine exists_kept_of_begun (Nat.lt_succ_self (textOf X).length) ht fun s hs => ?_
  rw [show (textOf X).length + 1 + w.length = (textOf X).length + (w.length + 1) by omega]
  refine Bool.eq_false_iff.2 (List.any_eq_false.1 hfree.2 s ?_)
  rw [hl, replacedFrom_append, Nat.zero_add]
  exact List.mem_append_right _ hs

/-- Class characters behind an `L`: to the end of the line, or up to another character. -/
theorem Seated.exists_lost {T : Text → Text → Prop} {e : Context} {Q : List Piece}
    (h : Seated T (fun _ _ => False) (.run []) Q e) :
    (∀ c ∈ textOf Q, isClassChar c = true) ∨
      ∃ w W x B, Q = W ++ .kept x :: B ∧ (∀ c ∈ w, isClassChar c = true) ∧
        isClassChar x = false ∧ IsRunOf T (fun _ _ => False) isClassChar x (.run []) w W ∧
        Seated T (fun _ _ => False) (.behind x) B e := by
  have hsplit : (textOf Q).takeWhile isClassChar ++ (textOf Q).dropWhile isClassChar = textOf Q :=
    List.takeWhile_append_dropWhile
  have hw : ∀ c ∈ (textOf Q).takeWhile isClassChar, isClassChar c = true :=
    fun _ => of_mem_takeWhile
  have hstop := stops_dropWhile isClassChar (textOf Q)
  cases hrest : (textOf Q).dropWhile isClassChar with
  | nil =>
    rw [hrest, List.append_nil] at hsplit
    rw [hsplit] at hw
    exact .inl hw
  | cons x rest =>
    rw [hrest, stops_cons] at hstop
    rw [hrest] at hsplit
    have hlegible : Legible (fun _ _ => False) isClassChar x :=
      ⟨hstop, fun _ => id, fun _ _ _ h => h.elim⟩
    obtain ⟨W, B, hQ, hW, -, hB⟩ := h.exists_run hlegible hsplit.symm hw
    exact .inr ⟨_, W, x, B, hQ, hw, hstop, hW, hB⟩

/-- What is asked of the names that scans of a text find: owners are classes, `N` relates the names
of members to their new names, and the new names of classes are class names. -/
structure Proper (t : Table) (N : Text → Text → Prop) (s : Text) : Prop where
  mentions : ∀ m ∈ mentions s,
    (∀ c ∈ m.1.owner, isClassChar c = true) ∧ N m.1.name (mapReference t m.1)
  names : ∀ w ∈ typeNames s, IsName isClassChar (t.mapClass w)

section Steps

variable {N : Text → Text → Prop} {s : Text}

theorem Proper.of_cons {c : Char} (h : Proper t N (c :: s)) (hc : c ≠ 'L') : Proper t N s :=
  ⟨mentions_cons hc s ▸ h.mentions, typeNames_cons hc s ▸ h.names⟩

theorem Proper.of_lost {w : Text} {x : Char} (h : Proper t N ('L' :: (w ++ x :: s)))
    (hw : ∀ c ∈ w, isClassChar c = true) (hx : isClassChar x = false)
    (hnone : reference? ('L' :: (w ++ x :: s)) = none) : Proper t N s := by
  have hopen : (Context.plain.after ('L' :: (w ++ [x]))).opening = [] := by
    rw [← List.cons_append, Context.after_of_not_isClassChar hx]
    exact Context.opening_behind x
  have hcut := typeNames_append hopen s
  simp only [List.cons_append, List.append_assoc, List.nil_append] at hcut
  refine ⟨mentions_lost hw hx hnone ▸ h.mentions, fun v hv => h.names v ?_⟩
  rw [hcut]
  exact List.mem_append_right _ hv

/-- The types in the signature of a reference are types of the text. -/
theorem mem_typeNames_of_signature {r : Reference} {signature w : Text}
    (hr : IsReference r signature) (hw : w ∈ typeNames signature) (s : Text) :
    w ∈ typeNames (r.text signature ++ s) := by
  obtain ⟨y, tail, rfl, hy, htail⟩ := hr.signature.exists_mark
  have hclass := isClassChar_of_mark hy
  have htext : r.text (y :: tail) ++ s =
      ('L' :: (r.owner ++ ';' :: '-' :: '>' :: r.name) ++ [y]) ++ (tail ++ s) := by
    simp [Reference.text]
  have hfront := Context.after_of_not_isClassChar hclass .plain
    ('L' :: (r.owner ++ ';' :: '-' :: '>' :: r.name))
  rw [typeNames_cons (ne_L_of_not_isClassChar hclass)] at hw
  have hcut := @typeNames_append tail (by rw [htail]; rfl) s
  rw [htext, typeNames_append (by rw [hfront]; exact Context.opening_behind y), hcut]
  exact List.mem_append_right _ (List.mem_append_left _ hw)

/-- A reference at the front: its owner is a type in the text. -/
theorem Proper.of_found {r : Reference} {signature : Text}
    (h : Proper t N (r.text signature ++ s)) (hr : IsReference r signature) :
    IsName isClassChar r.owner ∧ IsName isClassChar (t.mapClass r.owner) ∧
      N r.name (mapReference t r) ∧ Proper t N s := by
  have hmentions := h.mentions
  rw [mentions_found hr, List.forall_mem_cons] at hmentions
  have howner : IsName isClassChar r.owner := ⟨hr.owner.ne_nil, hmentions.1.1⟩
  have htext : r.text signature ++ s =
      'L' :: (r.owner ++ ';' :: ('-' :: '>' :: (r.name ++ signature) ++ s)) := by
    simp [Reference.text]
  have hopen : (Context.plain.after (r.text signature)).opening = [] := by
    rw [Reference.after_text hr]
    rfl
  refine ⟨howner, h.names _ ?_, hmentions.1.2, hmentions.2, fun w hw => h.names w ?_⟩
  · rw [htext, typeNames_found howner]
    exact List.mem_cons_self
  · rw [typeNames_append hopen]
    exact List.mem_append_right _ hw

end Steps

/-- The names in a reference that was renamed sit where they should. -/
theorem seated_linkedPieces {T N : Text → Text → Prop} {r : Reference} {signature : Text}
    (hr : IsReference r signature) (howner : IsName isClassChar r.owner)
    (hnew : IsName isClassChar (t.mapClass r.owner)) (hT : T r.owner (t.mapClass r.owner))
    (hN : N r.name (mapReference t r)) {s : Context} (hs : s.opening = []) :
    Seated T N s (linkedPieces t r signature) .plain := by
  obtain ⟨y, tail, rfl, hy, htail⟩ := hr.signature.exists_mark
  have hrest : Seated T N .plain (tail.map .kept) .plain := by
    have := @seated_map_kept T N .plain tail
    rwa [htail] at this
  refine .kept ?_
  rw [Context.next_L hs]
  exact .ofClass howner hnew hT (.kept (.kept (.ofMember hN hy hrest)))

section Run

variable {T N : Text → Text → Prop} {l : Line} {s e : Context} {X Q A B : List Piece}

theorem seated_linked_cons {c : Char} (hs : s.opening = []) (hc : c ≠ 'L')
    (ih : Seated T N (.behind c) (linked l.isFree t (textOf (X ++ [Piece.kept c])).length Q) e) :
    Seated T N s (linked l.isFree t (textOf X).length (.kept c :: Q)) e := by
  have hscan := scanFrom_none (reference?_eq_none_of_ne hc (textOf Q)) (textOf X).length
  have hstep := @linked_append l.isFree t X [Piece.kept c] Q (by simpa using congrArg _ hscan)
  rw [List.singleton_append] at hstep
  rw [hstep]
  refine .kept ?_
  rw [Context.next_of_opening_eq_nil hs hc]
  exact ih

/-- A class name that begins no reference. -/
theorem seated_linked_lost {w : Text} {W : List Piece} {x : Char} (hs : s.opening = [])
    (hw : ∀ c ∈ w, isClassChar c = true) (hx : isClassChar x = false)
    (hW : IsRunOf T N isClassChar x (.run []) w W)
    (hnone : reference? ('L' :: textOf (W ++ .kept x :: B)) = none)
    (ih : Seated T N (.behind x)
      (linked l.isFree t (textOf (X ++ .kept 'L' :: (W ++ [Piece.kept x]))).length B) e) :
    Seated T N s (linked l.isFree t (textOf X).length (.kept 'L' :: (W ++ .kept x :: B))) e := by
  rw [textOf_append, textOf_kept, hW.text] at hnone
  have hscan := scanFrom_reference_lost hw hx hnone (textOf X).length
  have hstep := @linked_append l.isFree t X (.kept 'L' :: (W ++ [Piece.kept x])) B
    (by simp [hW.text, hscan])
  simp only [List.cons_append, List.append_assoc, List.nil_append] at hstep
  rw [hstep]
  refine .kept ?_
  rw [Context.next_L hs]
  have := hW.seated.append ih
  simpa using this

/-- A reference that the test does not let pass. -/
theorem seated_linked_blocked {r r' : Reference} {signature signature' : Text}
    (hs : s.opening = []) (hA : IsReferenceOf T N A r r' signature signature')
    (hr' : IsReference r' signature')
    (hfree : l.isFree ⟨(textOf X).length, (textOf X).length + (r'.text signature').length⟩ = false)
    (ih : Seated T N .plain (linked l.isFree t (textOf (X ++ .kept 'L' :: A)).length B) e) :
    Seated T N s (linked l.isFree t (textOf X).length (.kept 'L' :: (A ++ B))) e := by
  have htext : textOf (.kept 'L' :: A) = r'.text signature' := hA.text
  have hedit : referenceEdit l.isFree t ((textOf X).length, r', (r'.text signature').length) =
      [] := by
    simp [referenceEdit, hfree]
  have hstep := @linked_append l.isFree t X (.kept 'L' :: A) B (by
    rw [htext, scanFrom_reference_found hr', List.flatMap_cons, hedit, List.nil_append])
  rw [List.cons_append] at hstep
  rw [hstep]
  refine .kept ?_
  rw [Context.next_L hs]
  exact hA.seated.append ih

end Run

/-- **The pass over references leaves the names it replaces where they should sit.** The pieces in
front are `X`; so far only classes were replaced. The recursion goes from shape to shape, as the
scan does. -/
theorem seated_linked {T N : Text → Text → Prop} {l : Line} (hT : ∀ w, T w (t.mapClass w))
    {s e : Context} {X Q : List Piece} (hQ : Seated T (fun _ _ => False) s Q e)
    (hs : s.opening = []) (hl : l.pieces = X ++ Q) (hproper : Proper t N (sourceOf Q)) :
    Seated T N s (linked l.isFree t (textOf X).length Q) e := by
  have members : ∀ old new : Text, False → N old new := fun _ _ h => h.elim
  have classes : ∀ old new, T old new → T old new := fun _ _ => id
  have hnone : ∀ old new : Text, False → MemberNames old new := fun _ _ h => h.elim
  cases Q with
  | nil => exact hQ.mono classes members
  | cons p Q =>
    cases p with
    | replaced old new =>
      cases hQ with
      | ofClass => cases hs
      | ofMember h => exact h.elim
    | kept c =>
      by_cases hc : c = 'L'
      · subst hc
        have hrun : Seated T (fun _ _ => False) (.run []) Q e := by
          have := hQ.of_kept
          rwa [Context.next_L hs] at this
        cases hf : reference? ('L' :: textOf Q) with
        | none =>
          have hsource := (hrun.reference?_eq_none_iff hnone).1 hf
          rcases hrun.exists_lost with hall | ⟨w, W, x, B, rfl, hw, hx, hW, hB⟩
          · -- the name is open to the end of the line
            have hend := scanFrom_reference_run (t := [])
              (fun c hc => isOwnerChar_of_isClassChar (hall c hc))
              (by rw [List.append_nil]; exact hf) (textOf X).length
            rw [List.append_nil] at hend
            rw [linked, passFrom, textOf_kept, hend]
            exact hQ.mono classes members
          · rw [sourceOf_kept] at hproper
            rw [sourceOf_append, sourceOf_kept] at hproper hsource
            refine seated_linked_lost hs hw hx (hW.mono classes members) hf ?_
            exact seated_linked hT hB (Context.opening_behind x) (by simp [hl])
              (hproper.of_lost hW.source hx hsource)
        | some y =>
          obtain ⟨r', n⟩ := y
          obtain ⟨signature', rest, ht, hr', -⟩ := reference?_eq_some_iff.1 hf
          obtain ⟨w, hw⟩ : ∃ w, r'.text signature' = 'L' :: w := ⟨_, rfl⟩
          cases hfree : l.isFree
            ⟨(textOf X).length, (textOf X).length + (r'.text signature').length⟩ with
          | true =>
            -- nothing in the reference was replaced, so it was one in the source
            rw [hw] at ht hfree
            obtain ⟨B, rfl, -⟩ := exists_kept_of_isFree hl (List.cons.inj ht).2 hfree
            have hplain := Reference.after_text hr' .plain
            have hB := hrun.of_map_kept
            rw [hw] at hplain
            rw [show (Context.run []).after w = .plain from hplain] at hB
            have hpieces : .kept 'L' :: (w.map .kept ++ B) =
                (r'.text signature').map .kept ++ B := by rw [hw]; rfl
            rw [hpieces, sourceOf_append, sourceOf_map_kept] at hproper
            obtain ⟨howner, hnew, hN, hproper⟩ := hproper.of_found hr'
            rw [hpieces, linked_found hr' (by rw [hw]; exact hfree)]
            refine (seated_linkedPieces hr' howner hnew (hT _) hN hs).append ?_
            exact seated_linked hT hB rfl (by simp [hl, hw]) hproper
          | false =>
            -- a class in the reference was replaced before
            obtain ⟨A, B, r, signature, rfl, hA, hB⟩ := hrun.exists_reference hnone ht hr'
            have hsource : sourceOf (.kept 'L' :: (A ++ B)) = r.text signature ++ sourceOf B := by
              rw [← hA.source]
              simp
            rw [hsource] at hproper
            refine seated_linked_blocked hs (hA.mono classes members) hr' hfree ?_
            exact seated_linked hT hB rfl (by simp [hl]) (hproper.of_found hA.isReference).2.2.2
      · have hrest := hQ.of_kept
        rw [Context.next_of_opening_eq_nil hs hc] at hrest
        refine seated_linked_cons hs hc ?_
        exact seated_linked hT hrest (Context.opening_behind c) (by simp [hl])
          (hproper.of_cons hc)
termination_by Q.length

end Pass

end Assembly

end Renaming
