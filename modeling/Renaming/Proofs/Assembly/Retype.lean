import Renaming.Assembly.Pass
import Renaming.Proofs.Assembly.Seat

/-!
# `Proofs/Assembly/Retype` — the pass over types, read from left to right

The pass over types is told by places: a scan finds them, a test sorts out those that are blocked,
and the rest are edited. `retype` does the same in one walk over the pieces, with the class name
that is open as its state. Walking, it is plain what becomes of each type: the kept ones are
renamed, the others were before. So the classes of the new text are those of the text at first, all
of them renamed (`typeNames_retype`).

The walk is the same for the signatures of definitions, where no piece is replaced yet.
-/

set_option autoImplicit false

namespace Renaming

namespace Assembly

open Line

/-- The pieces of a class name with its new name. -/
def renamedName (f : Text → Text) (w : Text) : List Piece :=
  if f w = w then w.map .kept else [Piece.replaced w (f w)]

/-- The pieces with every kept class renamed that a scan for types finds. The context holds the
pieces in front that may yet belong to a type. -/
def retype (f : Text → Text) : Context → List Piece → List Piece
  | s, [] => s.opening.map .kept
  | .run w, .kept c :: ps =>
    if isClassChar c then retype f (.run (w ++ [c])) ps
    else .kept 'L' :: ((if c = ';' ∧ w ≠ [] then renamedName f w else w.map .kept) ++
      .kept c :: retype f (.behind c) ps)
  | _, .kept c :: ps =>
    if c = 'L' then retype f (.run []) ps else .kept c :: retype f (.behind c) ps
  | s, .replaced old new :: ps => s.opening.map .kept ++ .replaced old new :: retype f .plain ps

/-- What can come next when seated pieces are read: the steps of `retype`. -/
inductive Reading (T N : Text → Text → Prop) : Context → List Piece → Context → Prop
  | nil {s : Context} (hs : s.IsSound) : Reading T N s [] s
  | skip {s e : Context} {c : Char} {ps : List Piece} (hs : s.opening = []) (hc : c ≠ 'L')
      (rest : Reading T N (.behind c) ps e) : Reading T N s (.kept c :: ps) e
  | begin {s e : Context} {ps : List Piece} (hs : s.opening = [])
      (rest : Reading T N (.run []) ps e) : Reading T N s (.kept 'L' :: ps) e
  | join {e : Context} {w : Text} {c : Char} {ps : List Piece} (hc : isClassChar c = true)
      (rest : Reading T N (.run (w ++ [c])) ps e) : Reading T N (.run w) (.kept c :: ps) e
  | found {e : Context} {w : Text} {ps : List Piece} (hw : IsName isClassChar w)
      (rest : Reading T N .plain ps e) : Reading T N (.run w) (.kept ';' :: ps) e
  | lost {e : Context} {w : Text} {c : Char} {ps : List Piece}
      (hw : ∀ d ∈ w, isClassChar d = true) (hc : isClassChar c = false) (hopen : w = [] ∨ c ≠ ';')
      (rest : Reading T N (.behind c) ps e) : Reading T N (.run w) (.kept c :: ps) e
  | ofClass {e : Context} {old new : Text} {ps : List Piece} (hold : IsName isClassChar old)
      (hnew : IsName isClassChar new) (h : T old new) (rest : Reading T N .plain ps e) :
      Reading T N (.run []) (.replaced old new :: .kept ';' :: ps) e
  | ofMember {e : Context} {old new : Text} {x : Char} {ps : List Piece} (h : N old new)
      (hx : x = '(' ∨ x = ':') (rest : Reading T N .plain ps e) :
      Reading T N .tip (.replaced old new :: .kept x :: ps) e

theorem Seated.reading {T N : Text → Text → Prop} {s e : Context} {ps : List Piece}
    (h : Seated T N s ps e) (hs : s.IsSound) : Reading T N s ps e := by
  have plain : ∀ {c : Char}, (Context.behind c).IsSound := by
    intro c
    exact Context.isSound_of_opening_eq_nil (Context.opening_behind c)
  have outside : Context.plain.IsSound := Context.isSound_of_opening_eq_nil rfl
  induction h with
  | nil => exact .nil hs
  | @kept s e c ps _ ih =>
    by_cases hrun : s.opening = []
    · by_cases hc : c = 'L'
      · subst hc
        rw [Context.next_L hrun] at ih
        exact .begin hrun (ih Context.isSound_run_nil)
      · rw [Context.next_of_opening_eq_nil hrun hc] at ih
        exact .skip hrun hc (ih plain)
    · cases s with
      | plain | tip => exact absurd rfl hrun
      | run w =>
        cases hc : isClassChar c with
        | true =>
          simp only [Context.next, hc, if_true] at ih
          exact .join hc (ih (hs.snoc hc))
        | false =>
          rw [Context.next_of_not_isClassChar hc] at ih
          by_cases hfound : c = ';' ∧ w ≠ []
          · obtain ⟨rfl, hne⟩ := hfound
            exact .found ⟨hne, hs.forall_mem⟩ (ih plain)
          · refine .lost hs.forall_mem hc ?_ (ih plain)
            by_cases hw : w = []
            · exact .inl hw
            · exact .inr fun hsemi => hfound ⟨hsemi, hw⟩
  | ofClass hold hnew hT _ ih => exact .ofClass hold hnew hT (ih outside)
  | ofMember hN hx _ ih => exact .ofMember hN hx (ih outside)

section Steps

variable {f : Text → Text} {s : Context} {c : Char} {w : Text} {ps : List Piece}

theorem retype_skip (hs : s.opening = []) (hc : c ≠ 'L') :
    retype f s (.kept c :: ps) = .kept c :: retype f (.behind c) ps := by
  cases s with
  | plain | tip => simp [retype, hc]
  | run w => cases hs

theorem retype_begin (hs : s.opening = []) :
    retype f s (.kept 'L' :: ps) = retype f (.run []) ps := by
  cases s with
  | plain | tip => simp [retype]
  | run w => cases hs

theorem retype_join (hc : isClassChar c = true) :
    retype f (.run w) (.kept c :: ps) = retype f (.run (w ++ [c])) ps := by
  simp [retype, hc]

theorem retype_run {u : Text} (hw : ∀ c ∈ w, isClassChar c = true) :
    retype f (.run u) (w.map .kept ++ ps) = retype f (.run (u ++ w)) ps := by
  induction w generalizing u with
  | nil => simp
  | cons c w ih =>
    rw [List.forall_mem_cons] at hw
    rw [List.map_cons, List.cons_append, retype_join hw.1, ih hw.2, List.append_assoc]
    rfl

theorem retype_found (hw : w ≠ []) :
    retype f (.run w) (.kept ';' :: ps) =
      .kept 'L' :: (renamedName f w ++ .kept ';' :: retype f .plain ps) := by
  have hc : isClassChar ';' = false := by decide
  have hbehind : Context.behind ';' = .plain := by decide
  simp [retype, hc, hw, hbehind]

theorem retype_lost (hc : isClassChar c = false) (hopen : w = [] ∨ c ≠ ';') :
    retype f (.run w) (.kept c :: ps) =
      .kept 'L' :: (w.map .kept ++ .kept c :: retype f (.behind c) ps) := by
  have hfound : ¬ (c = ';' ∧ w ≠ []) := fun h => hopen.elim h.2 fun hne => hne h.1
  rw [retype, if_neg (by simp [hc]), if_neg hfound]

theorem retype_ofClass (old new : Text) :
    retype f (.run []) (.replaced old new :: .kept ';' :: ps) =
      .kept 'L' :: .replaced old new :: .kept ';' :: retype f .plain ps := by
  rw [retype, retype_skip rfl (by decide)]
  rfl

theorem retype_ofMember (old new : Text) {x : Char} (hx : x = '(' ∨ x = ':') :
    retype f .tip (.replaced old new :: .kept x :: ps) =
      .replaced old new :: .kept x :: retype f .plain ps := by
  rw [retype, retype_skip rfl (ne_L_of_not_isClassChar (isClassChar_of_mark hx)),
    behind_of_mark hx]
  rfl

end Steps

theorem textOf_renamedName (f : Text → Text) (w : Text) : textOf (renamedName f w) = f w := by
  unfold renamedName
  split
  · rename_i h
    rw [textOf_map_kept, h]
  · simp

theorem sourceOf_renamedName (f : Text → Text) (w : Text) : sourceOf (renamedName f w) = w := by
  unfold renamedName
  split
  · exact sourceOf_map_kept w
  · simp

section Walk

variable {f : Text → Text} {T N : Text → Text → Prop} {s e : Context} {ps : List Piece}

theorem sourceOf_retype (h : Reading T N s ps e) :
    sourceOf (retype f s ps) = s.opening ++ sourceOf ps := by
  induction h with
  | nil => simp [retype]
  | skip hs hc _ ih => simp [retype_skip hs hc, hs, ih]
  | begin hs _ ih => simp [retype_begin hs, hs, ih]
  | join hc _ ih => simp [retype_join hc, ih]
  | found hw _ ih => simp [retype_found hw.ne_nil, ih, sourceOf_renamedName]
  | lost _ hc hopen _ ih => simp [retype_lost hc hopen, ih]
  | ofClass _ _ _ _ ih => simp [retype_ofClass, ih]
  | ofMember _ hx _ ih => simp [retype_ofMember _ _ hx, ih]

/-- Where no class name is open, the walk can be cut. -/
theorem retype_append {m : Context} {A : List Piece} (h : Reading T N s A m)
    (hm : m.opening = []) (B : List Piece) :
    retype f s (A ++ B) = retype f s A ++ retype f m B := by
  induction h with
  | nil => simp [retype, hm]
  | skip hs hc _ ih => simp [retype_skip hs hc, ih hm]
  | begin hs _ ih => simp [retype_begin hs, ih hm]
  | join hc _ ih => simp [retype_join hc, ih hm]
  | found hw _ ih => simp [retype_found hw.ne_nil, ih hm]
  | lost _ hc hopen _ ih => simp [retype_lost hc hopen, ih hm]
  | ofClass _ _ _ _ ih => simp [retype_ofClass, ih hm]
  | ofMember _ hx _ ih => simp [retype_ofMember _ _ hx, ih hm]

/-- A class name that stays, behind its `L`. -/
theorem seated_kept_run (hs : s.opening = []) (w : Text) {c : Char}
    (hc : isClassChar c = false) (h : Seated T N (.behind c) ps e) :
    Seated T N s (.kept 'L' :: (w.map .kept ++ .kept c :: ps)) e := by
  refine .kept ?_
  rw [Context.next_L hs]
  refine (seated_map_kept (.run []) w).append (.kept ?_)
  rwa [Context.next_of_not_isClassChar hc]

/-- Class names that are renamed where they are sit where a class is expected. -/
theorem seated_retype (h : Reading T N s ps e) (hN : ∀ old new, N old new → ';' ∉ old)
    (hf : ∀ w ∈ typeNames (s.opening ++ sourceOf ps), f w ≠ w →
      IsName isClassChar (f w) ∧ T w (f w))
    {front : Context} (hfront : front.opening = []) (hs : s.opening = [] → front = s) :
    Seated T N front (retype f s ps) e := by
  induction h generalizing front with
  | @nil s hsound =>
    cases s with
    | plain | tip =>
      obtain rfl := hs rfl
      exact .nil _
    | run w =>
      have := @seated_map_kept T N front ('L' :: w)
      rw [Context.after_cons, Context.next_L hfront, Context.after_run hsound.forall_mem] at this
      exact this
  | @skip s e c ps hs' hc _ ih =>
    obtain rfl := hs hs'
    rw [hs', List.nil_append, sourceOf_kept, typeNames_cons hc] at hf
    rw [retype_skip hs' hc]
    refine .kept ?_
    rw [Context.next_of_opening_eq_nil hs' hc]
    exact ih (by simpa using hf) (by simp) fun _ => rfl
  | begin hs' _ ih =>
    rw [retype_begin hs']
    exact ih (by simpa [hs'] using hf) hfront fun h => by cases h
  | join hc _ ih =>
    rw [retype_join hc]
    exact ih (by simpa using hf) hfront fun h => by cases h
  | @found e w ps hw _ ih =>
    have hnames : typeNames ('L' :: (w ++ ';' :: sourceOf ps)) = w :: typeNames (sourceOf ps) :=
      typeNames_found hw _
    simp only [Context.opening_run, List.cons_append, sourceOf_kept, hnames,
      List.forall_mem_cons] at hf
    have hrest := ih (by simpa using hf.2) rfl fun _ => rfl
    rw [retype_found hw.ne_nil, renamedName]
    split
    · exact seated_kept_run hfront w (by decide) hrest
    · rename_i hne
      refine .kept ?_
      rw [Context.next_L hfront]
      exact .ofClass hw (hf.1 hne).1 (hf.1 hne).2 hrest
  | @lost e w c ps hw hc hopen _ ih =>
    have hL := ne_L_of_not_isClassChar hc
    have hnames : typeNames ('L' :: (w ++ c :: sourceOf ps)) = typeNames (sourceOf ps) := by
      rw [typeNames_run hw (stops_cons.2 hc) (by simpa [eq_comm] using hopen), typeNames_cons hL]
    simp only [Context.opening_run, List.cons_append, sourceOf_kept, hnames] at hf
    rw [retype_lost hc hopen]
    exact seated_kept_run hfront w hc (ih (by simpa using hf) (by simp) fun _ => rfl)
  | @ofClass e old new ps hold hnew hT _ ih =>
    have hnames : typeNames ('L' :: (old ++ ';' :: sourceOf ps)) =
      old :: typeNames (sourceOf ps) := typeNames_found hold _
    simp only [Context.opening_run, List.cons_append, sourceOf_replaced, sourceOf_kept,
      List.nil_append, hnames, List.forall_mem_cons] at hf
    rw [retype_ofClass]
    refine .kept ?_
    rw [Context.next_L hfront]
    exact .ofClass hold hnew hT (ih (by simpa using hf.2) rfl fun _ => rfl)
  | @ofMember e old new x ps hN' hx _ ih =>
    obtain rfl := hs rfl
    simp only [Context.opening_tip, List.nil_append, sourceOf_replaced, sourceOf_kept,
      typeNames_quiet (hN old new hN') (isClassChar_of_mark hx) (ne_semicolon_of_mark hx)] at hf
    rw [retype_ofMember _ _ hx]
    exact .ofMember hN' hx (ih (by simpa using hf) rfl fun _ => rfl)

/-- **The classes of the new text are those of the text at first, all of them renamed.** -/
theorem typeNames_retype (h : Reading T N s ps e) (hT : ∀ old new, T old new → new = f old)
    (hN : ∀ old new, N old new → ';' ∉ old ∧ ';' ∉ new)
    (hf : ∀ w ∈ typeNames (s.opening ++ sourceOf ps), IsName isClassChar (f w)) :
    typeNames (textOf (retype f s ps)) = (typeNames (s.opening ++ sourceOf ps)).map f := by
  induction h with
  | @nil s hsound =>
    cases s with
    | plain | tip => rfl
    | run w =>
      have hnil : typeNames ('L' :: w) = [] := by
        have := typeNames_run (t := []) hsound.forall_mem (stops_nil _) (.inr (by simp))
        rw [List.append_nil] at this
        rw [this]
        rfl
      rw [retype, textOf_map_kept, sourceOf_nil, List.append_nil, Context.opening_run, hnil]
      rfl
  | @skip s e c ps hs hc _ ih =>
    rw [hs, List.nil_append, sourceOf_kept, typeNames_cons hc] at hf ⊢
    rw [retype_skip hs hc, textOf_kept, typeNames_cons hc, ih (by simpa using hf)]
    simp
  | begin hs _ ih =>
    rw [retype_begin hs, ih (by simpa [hs] using hf)]
    simp [hs]
  | join hc _ ih =>
    rw [retype_join hc, ih (by simpa using hf)]
    simp
  | @found e w ps hw _ ih =>
    have hnames : typeNames ('L' :: (w ++ ';' :: sourceOf ps)) = w :: typeNames (sourceOf ps) :=
      typeNames_found hw _
    simp only [Context.opening_run, List.cons_append, sourceOf_kept, hnames,
      List.forall_mem_cons] at hf ⊢
    rw [retype_found hw.ne_nil, textOf_kept, textOf_append, textOf_renamedName, textOf_kept,
      typeNames_found hf.1, ih (by simpa using hf.2)]
    simp
  | @lost e w c ps hw hc hopen _ ih =>
    have hL := ne_L_of_not_isClassChar hc
    have lost : ∀ t, typeNames ('L' :: (w ++ c :: t)) = typeNames t := by
      intro t
      rw [typeNames_run hw (stops_cons.2 hc) (by simpa [eq_comm] using hopen), typeNames_cons hL]
    simp only [Context.opening_run, List.cons_append, sourceOf_kept, lost] at hf ⊢
    rw [retype_lost hc hopen, textOf_kept, textOf_append, textOf_map_kept, textOf_kept, lost,
      ih (by simpa using hf)]
    simp
  | @ofClass e old new ps hold hnew hT' _ ih =>
    have hnames : typeNames ('L' :: (old ++ ';' :: sourceOf ps)) =
      old :: typeNames (sourceOf ps) := typeNames_found hold _
    simp only [Context.opening_run, List.cons_append, sourceOf_replaced, sourceOf_kept,
      List.nil_append, hnames, List.forall_mem_cons] at hf ⊢
    rw [retype_ofClass, textOf_kept, textOf_replaced, textOf_kept, typeNames_found hnew,
      ih (by simpa using hf.2), hT old new hT']
    simp
  | @ofMember e old new x ps hN' hx _ ih =>
    obtain ⟨hold, hnew⟩ := hN old new hN'
    have hclass := isClassChar_of_mark hx
    have hsemi := ne_semicolon_of_mark hx
    simp only [Context.opening_tip, List.nil_append, sourceOf_replaced, sourceOf_kept,
      typeNames_quiet hold hclass hsemi] at hf ⊢
    rw [retype_ofMember _ _ hx, textOf_replaced, textOf_kept,
      typeNames_quiet hnew hclass hsemi, ih (by simpa using hf)]
    simp

/-! ## The walk is the pass -/

/-- The edit for a type that was found, if the test lets it pass. -/
def typeEdit (free : Span → Bool) (f : Text → Text) (x : Nat × Text × Nat) : List Edit :=
  if free ⟨x.1, x.1 + x.2.2⟩ && f x.2.1 != x.2.1 then
    [editAt (x.1 + 1) x.2.1.length (f x.2.1)]
  else []

theorem lt_start_of_mem_typeEdit (free : Span → Bool) (f : Text → Text) (x : Nat × Text × Nat) :
    ∀ e ∈ typeEdit free f x, x.1 < e.span.start := by
  intro e he
  unfold typeEdit at he
  split at he
  · obtain rfl := List.mem_singleton.1 he
    exact Nat.lt_succ_self _
  · cases he

/-- The test lets kept characters pass, and no class that was replaced. -/
structure Tells (free : Span → Bool) (all : List Piece) : Prop where
  kept : ∀ (X : List Piece) (w : Text) (B : List Piece), all = X ++ (w.map .kept ++ B) →
    free ⟨(textOf X).length, (textOf X).length + w.length⟩ = true
  replaced : ∀ (X : List Piece) (old new : Text) (B : List Piece),
    all = X ++ .kept 'L' :: .replaced old new :: B →
      free ⟨(textOf X).length, (textOf X).length + (new.length + 2)⟩ = false

variable {free : Span → Bool}

/-- Pieces in which there is nothing to edit. -/
theorem passFrom_typeEdit_append (X A B : List Piece)
    (h : (scanFrom type? 0 (textOf X).length (textOf A ++ textOf B)).flatMap (typeEdit free f) =
      (scanFrom type? 0 ((textOf X).length + (textOf A).length) (textOf B)).flatMap
        (typeEdit free f)) :
    passFrom type? (typeEdit free f) (textOf X).length (A ++ B) =
      A ++ passFrom type? (typeEdit free f) (textOf (X ++ A)).length B := by
  rw [textOf_append, List.length_append]
  exact passFrom_append (lt_start_of_mem_typeEdit free f) h

/-- A class that is renamed. -/
theorem passFrom_typeEdit_found {X : List Piece} {w : Text} (hw : IsName isClassChar w)
    (hfree : free ⟨(textOf X).length, (textOf X).length + (w.length + 2)⟩ = true)
    (hne : f w ≠ w) (ps : List Piece) :
    passFrom type? (typeEdit free f) (textOf X).length
        (.kept 'L' :: (w.map .kept ++ .kept ';' :: ps)) =
      .kept 'L' :: .replaced w (f w) :: .kept ';' :: passFrom type? (typeEdit free f)
        (textOf (X ++ .kept 'L' :: (w.map .kept ++ [Piece.kept ';']))).length ps := by
  have hedit : typeEdit free f ((textOf X).length, w, w.length + 2) =
      [editAt ((textOf X).length + 1) w.length (f w)] := by
    simp [typeEdit, hfree, hne]
  have hlen : (textOf (X ++ .kept 'L' :: (w.map .kept ++ [Piece.kept ';']))).length =
      (textOf X).length + (w.length + 2) := by
    simp only [textOf_append, textOf_kept, textOf_map_kept, textOf_nil, List.length_append,
      List.length_cons, List.length_nil]
  have htext : textOf (.kept 'L' :: (w.map .kept ++ .kept ';' :: ps)) =
      'L' :: (w ++ ';' :: textOf ps) := by simp
  rw [hlen, passFrom, htext, scanFrom_type_found hw, List.flatMap_cons, hedit,
    List.singleton_append]
  have hfirst := @editFrom_editAt (textOf X).length ((textOf X).length + 1) [] (.kept ';' :: ps)
    'L' w (f w)
    ((scanFrom type? 0 ((textOf X).length + (w.length + 2)) (textOf ps)).flatMap (typeEdit free f))
    (by rw [textOf_nil, List.length_nil, Nat.add_zero])
  have hrest := @editFrom_append ((textOf X).length + 1 + w.length)
    ((scanFrom type? 0 ((textOf X).length + (w.length + 2)) (textOf ps)).flatMap (typeEdit free f))
    [Piece.kept ';'] (fun e he => by
      have := lt_start_of_mem_edits (lt_start_of_mem_typeEdit free f) he
      simp only [textOf_kept, textOf_nil, List.length_cons, List.length_nil]
      omega) ps
  have hstop : (textOf X).length + 1 + w.length + (textOf [Piece.kept ';']).length =
      (textOf X).length + (w.length + 2) := by
    simp only [textOf_kept, textOf_nil, List.length_cons, List.length_nil]
    omega
  rw [hstop] at hrest
  rw [List.singleton_append, List.singleton_append] at hrest
  rw [List.nil_append, List.nil_append, hrest] at hfirst
  exact hfirst

/-- **The pass over the types of seated pieces is the walk over them.** The induction is on what
comes next; `X` are the pieces that lie behind already, those of an open name left out. -/
theorem passFrom_typeEdit {all X : List Piece} (hfree : Tells free all)
    (h : Reading T N s ps e) (hN : ∀ old new, N old new → ';' ∉ new)
    (hall : all = X ++ (s.opening.map .kept ++ ps)) :
    passFrom type? (typeEdit free f) (textOf X).length (s.opening.map .kept ++ ps) =
      retype f s ps := by
  induction h generalizing X with
  | @nil s hsound =>
    have hnil : scanFrom type? 0 (textOf X).length s.opening = [] := by
      cases s with
      | plain | tip => rfl
      | run w =>
        have := scanFrom_type_run (t := []) hsound.forall_mem (stops_nil _) (.inr (by simp))
          (textOf X).length
        rw [List.append_nil] at this
        exact this
    rw [List.append_nil, passFrom, textOf_map_kept, hnil]
    rfl
  | @skip s e c ps hs hc _ ih =>
    have hscan := scanFrom_none (type?_eq_none_of_ne hc (textOf ps)) (textOf X).length
    have hrest := ih (X := X ++ [Piece.kept c]) (by simp [hall, hs])
    rw [retype_skip hs hc, hs, ← hrest, Context.opening_behind]
    exact passFrom_typeEdit_append X [Piece.kept c] ps (by simpa using congrArg _ hscan)
  | @begin s e ps hs _ ih =>
    rw [retype_begin hs, ← ih (X := X) (by simp [hall, hs]), hs]
    rfl
  | @join e w c ps hc _ ih =>
    rw [retype_join hc, ← ih (X := X) (by simp [hall])]
    simp
  | @found e w ps hw _ ih =>
    have hrest := ih (X := X ++ .kept 'L' :: (w.map .kept ++ [Piece.kept ';'])) (by simp [hall])
    rw [retype_found hw.ne_nil, renamedName, ← hrest]
    by_cases hfw : f w = w
    · have hedit : typeEdit free f ((textOf X).length, w, w.length + 2) = [] := by
        simp [typeEdit, hfw]
      have hscan := scanFrom_type_found hw (textOf ps) (textOf X).length
      rw [if_pos hfw]
      have hskip := @passFrom_typeEdit_append f free X
        (.kept 'L' :: (w.map .kept ++ [Piece.kept ';'])) ps (by simp [hscan, hedit])
      simp only [List.cons_append, List.append_assoc, List.nil_append] at hskip
      exact hskip
    · have hpass := hfree.kept X ('L' :: (w ++ [';'])) ps (by simp [hall])
      rw [if_neg hfw]
      exact passFrom_typeEdit_found hw (by simpa using hpass) hfw ps
  | @lost e w c ps hw hc hopen _ ih =>
    have hL := ne_L_of_not_isClassChar hc
    have hscan : ∀ i, scanFrom type? 0 i ('L' :: (w ++ c :: textOf ps)) =
        scanFrom type? 0 (i + (w.length + 1 + 1)) (textOf ps) := by
      intro i
      rw [scanFrom_type_run hw (stops_cons.2 hc) (by simpa [eq_comm] using hopen),
        scanFrom_none (type?_eq_none_of_ne hL _)]
      rfl
    have hrest := ih (X := X ++ .kept 'L' :: (w.map .kept ++ [Piece.kept c])) (by simp [hall])
    rw [retype_lost hc hopen, ← hrest, Context.opening_behind]
    have hskip := @passFrom_typeEdit_append f free X (.kept 'L' :: (w.map .kept ++ [Piece.kept c]))
      ps (by simp [hscan])
    simp only [List.cons_append, List.append_assoc, List.nil_append] at hskip
    exact hskip
  | @ofClass e old new ps hold hnew hT _ ih =>
    have hblocked := hfree.replaced X old new (.kept ';' :: ps) (by simp [hall])
    have hedit : typeEdit free f ((textOf X).length, new, new.length + 2) = [] := by
      simp [typeEdit, hblocked]
    have hscan := scanFrom_type_found hnew (textOf ps) (textOf X).length
    have hrest := ih (X := X ++ [Piece.kept 'L', .replaced old new, .kept ';']) (by simp [hall])
    rw [retype_ofClass, ← hrest]
    exact passFrom_typeEdit_append X [Piece.kept 'L', .replaced old new, .kept ';'] ps
      (by simp [hscan, hedit])
  | @ofMember e old new x ps hN' hx _ ih =>
    have hscan := scanFrom_type_quiet (hN old new hN') (isClassChar_of_mark hx)
      (ne_semicolon_of_mark hx) (textOf X).length (textOf ps)
    have hrest := ih (X := X ++ [Piece.replaced old new, .kept x]) (by simp [hall])
    rw [retype_ofMember _ _ hx, ← hrest]
    exact passFrom_typeEdit_append X [Piece.replaced old new, .kept x] ps (by simp [hscan])

end Walk

/-! ## The two places where types are renamed -/

theorem bounds_of_mem_replacedFrom {i : Nat} {ps : List Piece} {s : Span}
    (h : s ∈ replacedFrom i ps) : i ≤ s.start ∧ s.stop ≤ i + (textOf ps).length := by
  induction ps generalizing i with
  | nil => cases h
  | cons p ps ih =>
    cases p with
    | kept c =>
      have := ih h
      rw [textOf_kept, List.length_cons]
      omega
    | replaced old new =>
      rw [textOf_replaced, List.length_append]
      rcases List.mem_cons.1 h with rfl | h
      · dsimp only
        omega
      · have := ih h
        omega

theorem literals_eq_nil {t : Text} (h : '"' ∉ t) : literals t = [] := by
  have := literalsFrom_code_append h 0 0 []
  rw [List.append_nil] at this
  exact this

/-- What may be touched in a line without quotes. -/
theorem tells_isFree {l : Line} (hq : '"' ∉ l.text) : Tells l.isFree l.pieces := by
  have hblocked : l.blocked = replacedFrom 0 l.pieces := by rw [blocked, literals_eq_nil hq]; rfl
  refine ⟨fun X w B hps => ?_, fun X old new B hps => ?_⟩
  · rw [isFree, hblocked, Bool.not_eq_true', List.any_eq_false, hps, replacedFrom_append,
      replacedFrom_append, replacedFrom_map_kept, List.nil_append, textOf_map_kept, Nat.zero_add]
    intro s hs
    simp only [Span.overlaps, Bool.and_eq_true, decide_eq_true_eq]
    rcases List.mem_append.1 hs with hs | hs
    · have := bounds_of_mem_replacedFrom hs
      omega
    · have := bounds_of_mem_replacedFrom hs
      omega
  · rw [isFree, hblocked, Bool.not_eq_false', List.any_eq_true, hps, replacedFrom_append,
      Nat.zero_add]
    refine ⟨_, List.mem_append_right _ List.mem_cons_self, ?_⟩
    simp only [Span.overlaps, Bool.and_eq_true, decide_eq_true_eq]
    omega

/-- **The last pass is the walk.** -/
theorem typePass_pieces (t : Table) {l : Line} {T N : Text → Text → Prop} {e : Context}
    (hq : '"' ∉ l.text) (h : Seated T N .plain l.pieces e)
    (hN : ∀ old new, N old new → ';' ∉ new) :
    (typePass t l).pieces = retype t.mapClass .plain l.pieces := by
  have hedits : ∀ g, (∀ x, g x = typeEdit l.isFree t.mapClass x) →
      (scan type? l.text).flatMap g =
        (scan type? l.text).flatMap (typeEdit l.isFree t.mapClass) :=
    fun g hg => congrArg (fun g => (scan type? l.text).flatMap g) (funext hg)
  have hsound : Context.plain.IsSound := Context.isSound_of_opening_eq_nil rfl
  have hpass := @passFrom_typeEdit t.mapClass T N .plain e l.pieces l.isFree l.pieces []
    (tells_isFree hq) (h.reading hsound) hN rfl
  rw [typePass, typePassEdits, List.filterMap_eq_flatMap_toList, hedits]
  · exact hpass
  · rintro ⟨i, name, n⟩
    dsimp only [typeEdit]
    split <;> rfl

/-- The signature of a definition is renamed by the same walk. -/
theorem editFrom_typeEdits (f : Text → Text) (place : Nat) (s : Text) :
    editFrom place (typeEdits f place s) (s.map .kept) = retype f .plain (s.map .kept) := by
  have hedits : typeEdits f place s =
      (scanFrom type? 0 place s).flatMap (typeEdit (fun _ => true) f) := by
    have hscan := scanFrom_add type? 0 place 0 s
    rw [Nat.add_zero] at hscan
    rw [hscan, List.flatMap_map, typeEdits, List.filterMap_eq_flatMap_toList]
    refine congrArg (fun g => (scan type? s).flatMap g) (funext fun x => ?_)
    simp only [typeEdit, Bool.true_and, bne_iff_ne, ne_eq, ite_not]
    split <;> rfl
  -- any kept characters may stand in front
  have hfront : (textOf ((List.replicate place ' ').map Piece.kept)).length = place := by
    rw [textOf_map_kept, List.length_replicate]
  have htells : Tells (fun _ => true) ((List.replicate place ' ' ++ s).map .kept) := by
    refine ⟨fun _ _ _ _ => rfl, fun X old new B hall => ?_⟩
    have hmem : Piece.replaced old new ∈ (List.replicate place ' ' ++ s).map Piece.kept := by
      rw [hall]
      simp
    obtain ⟨c, -, hc⟩ := List.mem_map.1 hmem
    cases hc
  have hsound : Context.plain.IsSound := Context.isSound_of_opening_eq_nil rfl
  have hread : Reading (fun _ _ => False) (fun _ _ => False) .plain (s.map .kept)
    (Context.plain.after s) := (seated_map_kept .plain s).reading hsound
  have hpass := @passFrom_typeEdit f _ _ .plain _ (s.map .kept) (fun _ => true) _
    ((List.replicate place ' ').map .kept) htells hread (fun _ _ h => h.elim)
    (by simp [-List.map_replicate])
  rw [hfront, passFrom] at hpass
  simp only [Context.opening_plain, List.map_nil, List.nil_append, textOf_map_kept] at hpass
  rw [hedits]
  exact hpass

end Assembly

end Renaming
