import Renaming.Proofs.Text.Pieces
import Renaming.Text.Lines

/-!
# `Proofs/Text/Lines` — lines that are written and read again

A mapping file is written line by line. It is cut at more characters than the line feed, but all of
them are blanks, so a line that consists of words comes back in one piece. Blank lines and comments
are left out, and what remains keeps its number (`contentLines_ofLines`).
-/

set_option autoImplicit false

namespace Renaming

namespace Text

/-- A line that no boundary breaks. -/
def Unbroken (line : Text) : Prop := ∀ c ∈ line, isLineBoundary c = false

instance (line : Text) : Decidable (Unbroken line) := List.decidableBAll _ line

theorem isBlank_of_isLineBoundary {c : Char} (h : isLineBoundary c = true) : isBlank c = true := by
  simp only [isLineBoundary, isBlank, inRanges, blankRanges, List.any_cons, List.any_nil,
    Bool.or_false, Bool.or_eq_true, Bool.and_eq_true, decide_eq_true_eq] at h ⊢
  omega

theorem IsField.unbroken {w : Text} (hw : IsField w) : Unbroken w := by
  intro c hc
  cases hboundary : isLineBoundary c with
  | false => rfl
  | true => exact absurd hc (hw.notMem (isBlank_of_isLineBoundary hboundary))

theorem unbroken_append {s t : Text} (hs : Unbroken s) (ht : Unbroken t) : Unbroken (s ++ t) := by
  intro c hc
  rcases List.mem_append.1 hc with hc | hc
  · exact hs c hc
  · exact ht c hc

theorem unbroken_cons {c : Char} {t : Text} (hc : isLineBoundary c = false) (ht : Unbroken t) :
    Unbroken (c :: t) := List.forall_mem_cons.2 ⟨hc, ht⟩

theorem unbroken_joinWith {c : Char} (hc : isLineBoundary c = false) {ws : List Text}
    (hws : ∀ w ∈ ws, Unbroken w) : Unbroken (joinWith c ws) := by
  induction ws with
  | nil => exact fun _ h => absurd h List.not_mem_nil
  | cons w ws ih =>
    rw [List.forall_mem_cons] at hws
    cases ws with
    | nil => exact hws.1
    | cons v ws => exact unbroken_append hws.1 (unbroken_cons hc (ih hws.2))

/-- The text of these lines, with a line feed behind each of them. -/
def ofLines (ls : List Text) : Text := ls.flatMap fun l => l ++ ['\n']

theorem lines_append_feed {l : Text} (hl : Unbroken l) (t : Text) :
    lines (l ++ '\n' :: t) = l :: lines t := by
  induction l with
  | nil => rfl
  | cons c l ih =>
    obtain ⟨hc, hl⟩ := List.forall_mem_cons.1 hl
    have hreturn : c ≠ '\r' := by
      rintro rfl
      cases hc
    rw [List.cons_append, lines]
    · rw [hc, if_neg Bool.false_ne_true, ih hl]
    · intro r hr
      exact absurd hr hreturn

/-- **Lines are read as they were written.** -/
theorem lines_ofLines {ls : List Text} (hls : ∀ l ∈ ls, Unbroken l) : lines (ofLines ls) = ls := by
  induction ls with
  | nil => rfl
  | cons l ls ih =>
    rw [List.forall_mem_cons] at hls
    have hcons : ofLines (l :: ls) = l ++ '\n' :: ofLines ls := by simp [ofLines]
    rw [hcons, lines_append_feed hls.1, ih hls.2]

/-- The lines that say something, with their numbers, the first of all lines being number `n`. -/
def contentFrom (n : Nat) : List Text → List (Nat × Text)
  | [] => []
  | l :: ls => if hasContent l then (n, l) :: contentFrom (n + 1) ls else contentFrom (n + 1) ls

theorem contentLines_ofLines {ls : List Text} (hls : ∀ l ∈ ls, Unbroken l) :
    (ofLines ls).contentLines = contentFrom 1 ls := by
  have hfilter : ∀ n, ((ls.zipIdx n).map fun p => (p.2, p.1)).filter (fun p => hasContent p.2) =
      contentFrom n ls := by
    clear hls
    induction ls with
    | nil => exact fun _ => rfl
    | cons l ls ih =>
      intro n
      rw [List.zipIdx_cons, List.map_cons, List.filter_cons, contentFrom, ih]
  unfold contentLines numberedLines
  rw [lines_ofLines hls]
  exact hfilter 1

/-! ## Rows -/

/-- A line that says something and stays in one piece. -/
structure IsRow (line : Text) : Prop where
  content : hasContent line = true
  unbroken : Unbroken line

/-- A word that a row may start with. -/
structure IsLead (w : Text) : Prop where
  isField : IsField w
  noComment : w.head? ≠ some '#'

instance (w : Text) : Decidable (IsLead w) :=
  decidable_of_iff (IsField w ∧ w.head? ≠ some '#') ⟨fun h => ⟨h.1, h.2⟩, fun h => ⟨h.1, h.2⟩⟩

/-- A line with a word in it says something, unless a number sign starts the line. -/
theorem hasContent_of_isField {s w t : Text} (hw : IsField w)
    (hsign : (s ++ (w ++ t)).head? ≠ some '#') : hasContent (s ++ (w ++ t)) = true := by
  obtain ⟨c, hc⟩ := List.exists_mem_of_ne_nil w hw.1
  have hblank : isBlankText (s ++ (w ++ t)) = false := by
    rw [isBlankText, List.all_eq_false]
    refine ⟨c, by simp [hc], ?_⟩
    rw [hw.2 c hc]
    exact Bool.false_ne_true
  have hstart : startsWith ['#'] (s ++ (w ++ t)) = false := by
    cases hline : s ++ (w ++ t) with
    | nil => rfl
    | cons d r =>
      have hd : d ≠ '#' := by
        rintro rfl
        rw [hline] at hsign
        exact hsign rfl
      simp [startsWith, List.isPrefixOf, Ne.symm hd]
  rw [hasContent, hblank, hstart]
  rfl

/-- A word with pieces behind it, and a mark between each two of them, is a row, and it may be
indented. -/
theorem isRow_append_joinWith {indent w : Text} {ws : List Text} {c : Char}
    (hindent : Unbroken indent) (hw : IsField w) (hws : ∀ v ∈ ws, Unbroken v)
    (hc : isLineBoundary c = false) (hsign : (indent ++ w).head? ≠ some '#') :
    IsRow (indent ++ joinWith c (w :: ws)) := by
  constructor
  · obtain ⟨rest, hrest⟩ := exists_joinWith_eq_append c w ws
    rw [hrest]
    apply hasContent_of_isField hw
    rw [← List.append_assoc, List.head?_append_of_ne_nil]
    · exact hsign
    · exact fun e => hw.1 (List.append_eq_nil_iff.1 e).2
  · exact unbroken_append hindent
      (unbroken_joinWith hc (List.forall_mem_cons.2 ⟨hw.unbroken, hws⟩))

theorem isRow_joinWith {w : Text} {ws : List Text} {c : Char} (hw : IsLead w)
    (hws : ∀ v ∈ ws, Unbroken v) (hc : isLineBoundary c = false) :
    IsRow (joinWith c (w :: ws)) := by
  rw [← List.nil_append (joinWith c (w :: ws))]
  exact isRow_append_joinWith (fun _ h => absurd h List.not_mem_nil) hw.isField hws hc hw.noComment

end Text

end Renaming
