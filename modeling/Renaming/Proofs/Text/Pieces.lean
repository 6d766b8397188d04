import Mathlib.Data.List.Basic
import Renaming.Text.Blank

/-!
# `Proofs/Text/Pieces` — pieces that are put together and cut apart again

Columns are written with a mark between them, and words with a blank. Cut apart again they are what
they were, as long as no piece holds the character at which it would be cut. A cut at one character
never depends on another: what stands on both sides of a separator is cut for itself
(`splitWhere_append_cons`).
-/

set_option autoImplicit false

namespace Renaming

namespace Text

section Pieces

variable {p : Char → Bool} {c : Char}

/-- A text without a separator is one piece. -/
theorem splitWhere_of_forall {t : Text} (h : ∀ d ∈ t, p d = false) : splitWhere p t = [t] := by
  induction t with
  | nil => rfl
  | cons d t ih =>
    rw [List.forall_mem_cons] at h
    simp [splitWhere, h.1, ih h.2]

/-- The pieces on both sides of a separator do not mix. -/
theorem splitWhere_append_cons (hc : p c = true) (s t : Text) :
    splitWhere p (s ++ c :: t) = splitWhere p s ++ splitWhere p t := by
  induction s with
  | nil => simp [splitWhere, hc]
  | cons d s ih =>
    rw [List.cons_append, splitWhere, splitWhere, ih]
    split
    · rfl
    · cases hs : splitWhere p s with
      | nil => exact absurd hs (splitWhere_ne_nil _ s)
      | cons w ws => rfl

/-- A text without the mark is one piece. -/
theorem splitOn_of_notMem {t : Text} (h : c ∉ t) : splitOn c t = [t] := by
  apply splitWhere_of_forall
  intro d hd
  rw [beq_eq_false_iff_ne]
  rintro rfl
  exact h hd

/-- The pieces on both sides of a mark do not mix. -/
theorem splitOn_append_cons (c : Char) (s t : Text) :
    splitOn c (s ++ c :: t) = splitOn c s ++ splitOn c t := by
  unfold splitOn
  exact splitWhere_append_cons (p := (· == c)) (beq_self_eq_true c) s t

/-- The first piece begins the text. -/
theorem exists_splitOn_eq_cons (c : Char) (t : Text) :
    ∃ w ws rest, splitOn c t = w :: ws ∧ t = w ++ rest := by
  unfold splitOn
  induction t with
  | nil => exact ⟨[], [], [], rfl, rfl⟩
  | cons d r ih =>
    obtain ⟨w, ws, rest, hr, ht⟩ := ih
    rw [splitWhere, hr]
    split
    · exact ⟨[], _, d :: r, rfl, rfl⟩
    · exact ⟨d :: w, ws, rest, rfl, by rw [List.cons_append, ← ht]⟩

theorem splitOn_joinWith {ls : List Text} (h : ls ≠ []) :
    splitOn c (joinWith c ls) = ls.flatMap (splitOn c) := by
  induction ls with
  | nil => exact absurd rfl h
  | cons l ls ih =>
    cases ls with
    | nil => exact (List.append_nil _).symm
    | cons m ls =>
      rw [joinWith, splitOn_append_cons, ih (List.cons_ne_nil m ls)]
      rfl

/-- **Columns are read as they were written.** -/
theorem splitOn_joinWith_of_notMem {ls : List Text} (h : ls ≠ []) (hls : ∀ l ∈ ls, c ∉ l) :
    splitOn c (joinWith c ls) = ls := by
  have hpieces : ls.flatMap (splitOn c) = ls.flatMap fun l => [l] :=
    List.flatMap_congr fun l hl => splitOn_of_notMem (hls l hl)
  rw [splitOn_joinWith h, hpieces, List.flatMap_singleton']

end Pieces

/-! ## Words -/

/-- A word between blanks: it is not empty and holds no blank. -/
def IsField (w : Text) : Prop := w ≠ [] ∧ ∀ c ∈ w, isBlank c = false

instance (w : Text) : Decidable (IsField w) :=
  have : Decidable (∀ c ∈ w, isBlank c = false) := List.decidableBAll _ w
  inferInstanceAs (Decidable (_ ∧ _))

theorem IsField.notMem {w : Text} (hw : IsField w) {c : Char} (hc : isBlank c = true) : c ∉ w := by
  intro hmem
  rw [hw.2 c hmem] at hc
  cases hc

theorem IsField.fields_eq {w : Text} (hw : IsField w) : fields w = [w] := by
  rw [fields, splitWhere_of_forall hw.2]
  simpa using hw.1

theorem IsField.trim_eq {w : Text} (hw : IsField w) : trim w = w := by
  have hkeep : ∀ t : Text, (∀ c ∈ t, isBlank c = false) → t.dropWhile isBlank = t := by
    intro t ht
    cases t with
    | nil => rfl
    | cons c t => rw [List.dropWhile_cons, ht c List.mem_cons_self, if_neg Bool.false_ne_true]
  have hreverse : w.reverse.dropWhile isBlank = w.reverse :=
    hkeep w.reverse fun c hc => hw.2 c (List.mem_reverse.1 hc)
  rw [trim, trimLeft, dropLeading, hkeep w hw.2, trimRight, dropTrailing, hreverse,
    List.reverse_reverse]

/-- What is taken off at the end anyway may stand there once more. -/
theorem dropTrailing_dropLeading_append {p : Char → Bool} {c : Char} (hc : p c = true) (t : Text) :
    dropTrailing p (dropLeading p (t ++ [c])) = dropTrailing p (dropLeading p t) := by
  unfold dropLeading
  rw [List.dropWhile_append]
  split
  · rename_i hempty
    rw [List.isEmpty_iff.1 hempty]
    simp [hc]
  · simp [dropTrailing, hc]

theorem fields_append_cons {c : Char} (hc : isBlank c = true) (s t : Text) :
    fields (s ++ c :: t) = fields s ++ fields t := by
  unfold fields
  rw [splitWhere_append_cons hc, List.filter_append]

/-- Blanks in front of a line do not count. -/
theorem fields_append_of_isBlankText {indent : Text} (h : isBlankText indent = true) (t : Text) :
    fields (indent ++ t) = fields t := by
  induction indent with
  | nil => rfl
  | cons c indent ih =>
    simp only [isBlankText, List.all_cons, Bool.and_eq_true] at h
    have hcons : fields (c :: (indent ++ t)) = fields [] ++ fields (indent ++ t) :=
      fields_append_cons h.1 [] (indent ++ t)
    rw [List.cons_append, hcons, ih h.2]
    rfl

/-- **Words are read as they were written.** -/
theorem fields_joinWith {ws : List Text} (hws : ∀ w ∈ ws, IsField w) :
    fields (joinWith ' ' ws) = ws := by
  induction ws with
  | nil => rfl
  | cons w ws ih =>
    rw [List.forall_mem_cons] at hws
    cases ws with
    | nil => exact hws.1.fields_eq
    | cons v ws =>
      rw [joinWith, fields_append_cons (by decide), hws.1.fields_eq, ih hws.2]
      rfl

theorem exists_joinWith_eq_append (c : Char) (w : Text) (ws : List Text) :
    ∃ rest, joinWith c (w :: ws) = w ++ rest := by
  cases ws with
  | nil => exact ⟨[], (List.append_nil w).symm⟩
  | cons v ws => exact ⟨c :: joinWith c (v :: ws), rfl⟩

end Text

end Renaming
