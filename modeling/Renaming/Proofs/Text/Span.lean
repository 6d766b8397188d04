import Mathlib.Data.List.DropRight
import Mathlib.Data.List.TakeDrop
import Mathlib.Data.List.TakeWhile
import Renaming.Proofs.Text.Pieces
import Renaming.Text.Digit

/-!
# `Proofs/Text/Span` — reading a line from left to right

Some rows are not cut at once but read from left to right: as long as characters are of a kind, then
a mark, then the next stretch. A stretch that was written ends where it ended (`span_append`), as
long as what follows it does not begin with one more character of its kind. Digits are no blanks, in
whatever script they are written.
-/

set_option autoImplicit false

namespace Renaming

namespace Text

/-- **A stretch ends where it was written to end.** -/
theorem span_append {p : Char → Bool} {s t : Text} (hs : ∀ c ∈ s, p c = true)
    (ht : ∀ c ∈ t.head?, p c = false) : (s ++ t).span p = (s, t) := by
  rw [List.span_eq_takeWhile_dropWhile]
  have htake : t.takeWhile p = [] ∧ t.dropWhile p = t := by
    cases t with
    | nil => exact ⟨rfl, rfl⟩
    | cons c t =>
      rw [List.takeWhile_cons, List.dropWhile_cons, ht c rfl]
      exact ⟨rfl, rfl⟩
  rw [List.takeWhile_append_of_pos hs, List.dropWhile_append_of_pos hs, htake.1, htake.2,
    List.append_nil]

theorem isBlank_of_mem {t : Text} (ht : isBlankText t = true) {c : Char} (hc : c ∈ t) :
    isBlank c = true := List.all_eq_true.1 ht c hc

/-- Blanks in front of a word are taken off, and nothing else. -/
theorem trimLeft_append {indent : Text} (hindent : isBlankText indent = true) {w t : Text}
    (hw : IsField w) : trimLeft (indent ++ (w ++ t)) = w ++ t := by
  unfold trimLeft dropLeading
  rw [List.dropWhile_append_of_pos fun c hc => isBlank_of_mem hindent hc]
  cases w with
  | nil => exact absurd rfl hw.1
  | cons c w => rw [List.cons_append, List.dropWhile_cons, hw.2 c List.mem_cons_self]; rfl

/-- A word at the end of a line stays there. -/
theorem trimRight_append (s : Text) {w : Text} (hw : IsField w) : trimRight (s ++ w) = s ++ w := by
  unfold trimRight dropTrailing
  rw [List.reverse_append]
  have hkeep : (w.reverse ++ s.reverse).dropWhile isBlank = w.reverse ++ s.reverse := by
    cases hreverse : w.reverse with
    | nil => exact absurd (List.reverse_eq_nil_iff.1 hreverse) hw.1
    | cons c r =>
      have hc : c ∈ w := List.mem_reverse.1 (by rw [hreverse]; exact List.mem_cons_self)
      rw [List.cons_append, List.dropWhile_cons, hw.2 c hc]
      rfl
  rw [hkeep, List.reverse_append, List.reverse_reverse, List.reverse_reverse]

/-- In front of a word at the end, blanks are taken off at the beginning only. -/
theorem trim_append (s : Text) {w : Text} (hw : IsField w) : trim (s ++ w) = trimLeft s ++ w := by
  have hleft : trimLeft (s ++ w) = trimLeft s ++ w := by
    unfold trimLeft dropLeading
    rw [List.dropWhile_append]
    split
    · rename_i hempty
      rw [List.isEmpty_iff.1 hempty]
      cases w with
      | nil => exact absurd rfl hw.1
      | cons c w => rw [List.dropWhile_cons, hw.2 c List.mem_cons_self]; rfl
    · rfl
  rw [trim, hleft, trimRight_append _ hw]

/-! ## Blanks at both ends -/

/-- What is taken off in front are characters of the kind, and all others stay. -/
theorem mem_dropLeading {p : Char → Bool} {c : Char} (hc : p c = false) {t : Text} :
    c ∈ dropLeading p t ↔ c ∈ t := by
  unfold dropLeading
  induction t with
  | nil => exact Iff.rfl
  | cons d t ih =>
    rw [List.dropWhile_cons]
    split
    · rename_i hd
      rw [ih, List.mem_cons, or_iff_right]
      rintro rfl
      rw [hc] at hd
      cases hd
    · exact Iff.rfl

theorem mem_dropTrailing {p : Char → Bool} {c : Char} (hc : p c = false) {t : Text} :
    c ∈ dropTrailing p t ↔ c ∈ t := by
  unfold dropTrailing
  rw [List.mem_reverse]
  exact (mem_dropLeading hc).trans List.mem_reverse

/-- A character that is not taken off keeps what stands in front of it. -/
theorem head?_dropTrailing {p : Char → Bool} {t : Text} (h : ∀ c ∈ t.head?, p c = false) :
    (dropTrailing p t).head? = t.head? := by
  cases t with
  | nil => rfl
  | cons c t =>
    have hc : c ∈ dropTrailing p (c :: t) := (mem_dropTrailing (h c rfl)).2 List.mem_cons_self
    obtain ⟨rest, hrest⟩ : dropTrailing p (c :: t) <+: c :: t := List.rdropWhile_prefix p (c :: t)
    cases hdrop : dropTrailing p (c :: t) with
    | nil =>
      rw [hdrop] at hc
      cases hc
    | cons d s =>
      rw [hdrop, List.cons_append, List.cons.injEq] at hrest
      rw [List.head?_cons, List.head?_cons, hrest.1]

/-- Trimming takes off blanks only. -/
theorem mem_trim {c : Char} (hc : isBlank c = false) {t : Text} : c ∈ trim t ↔ c ∈ t :=
  (mem_dropTrailing hc).trans (mem_dropLeading hc)

/-- Nothing is left of blanks, and something of all else. -/
theorem trim_eq_nil_iff {t : Text} : trim t = [] ↔ isBlankText t = true := by
  constructor
  · intro h
    refine List.all_eq_true.2 fun c hc => ?_
    by_contra hblank
    have hmem := (mem_trim (Bool.eq_false_iff.2 hblank)).2 hc
    rw [h] at hmem
    exact List.not_mem_nil hmem
  · intro h
    have hnone : dropLeading isBlank t = [] :=
      List.dropWhile_eq_nil_iff.2 (List.all_eq_true.1 h)
    rw [trim, trimLeft, hnone]
    rfl

/-! ## Words without marks -/

/-- A word with none of these characters. -/
def IsWordWithout (marks : List Char) (w : Text) : Prop := IsField w ∧ ∀ c ∈ marks, c ∉ w

instance (marks : List Char) (w : Text) : Decidable (IsWordWithout marks w) :=
  -- only these characters are tried, not all there are
  have : Decidable (∀ c ∈ marks, c ∉ w) := List.decidableBAll _ marks
  inferInstanceAs (Decidable (_ ∧ _))

theorem isField_append {s t : Text} (hs : IsField s) (ht : ∀ c ∈ t, isBlank c = false) :
    IsField (s ++ t) := by
  constructor
  · exact fun h => hs.1 (List.append_eq_nil_iff.1 h).1
  · intro c hc
    rcases List.mem_append.1 hc with hc | hc
    · exact hs.2 c hc
    · exact ht c hc

/-- What is true of the mark and of all characters of the pieces is true of all characters. -/
theorem forall_mem_joinWith {p : Char → Prop} {c : Char} (hc : p c) {ws : List Text}
    (hws : ∀ w ∈ ws, ∀ d ∈ w, p d) : ∀ d ∈ joinWith c ws, p d := by
  induction ws with
  | nil => exact fun _ h => absurd h List.not_mem_nil
  | cons w ws ih =>
    rw [List.forall_mem_cons] at hws
    cases ws with
    | nil => exact hws.1
    | cons v ws => exact List.forall_mem_append.2 ⟨hws.1, List.forall_mem_cons.2 ⟨hc, ih hws.2⟩⟩

/-! ## Numbers -/

/-- Decimal digits, at least one. -/
def IsNumber (t : Text) : Prop := t ≠ [] ∧ ∀ c ∈ t, isDecimalDigit c = true

instance (t : Text) : Decidable (IsNumber t) :=
  have : Decidable (∀ c ∈ t, isDecimalDigit c = true) := List.decidableBAll _ t
  inferInstanceAs (Decidable (_ ∧ _))

/-- No digit of any script is a blank. -/
theorem isBlank_of_isDecimalDigit {c : Char} (h : isDecimalDigit c = true) : isBlank c = false := by
  have hapart : ∀ z ∈ 0x30 :: zeroDigits, ∀ r ∈ blankRanges, r.2 < z ∨ z + 9 < r.1 := by decide
  have hzero : ∃ z ∈ 0x30 :: zeroDigits, z ≤ c.toNat ∧ c.toNat ≤ z + 9 := by
    unfold isDecimalDigit digitValue? at h
    split at h
    · split at h
      · rename_i hdigit
        refine ⟨0x30, List.mem_cons_self, ?_⟩
        simp only [Char.isDigit, Bool.and_eq_true, decide_eq_true_eq] at hdigit
        exact ⟨hdigit.1, hdigit.2⟩
      · cases h
    · rw [Option.isSome_map] at h
      obtain ⟨z, hz⟩ := Option.isSome_iff_exists.1 h
      refine ⟨z, List.mem_cons_of_mem _ (List.mem_of_find?_eq_some hz), ?_⟩
      have := List.find?_some hz
      simpa using this
  obtain ⟨z, hz, hle, hge⟩ := hzero
  unfold isBlank inRanges
  rw [List.any_eq_false]
  intro r hr hin
  have := hapart z hz r hr
  simp only [Bool.and_eq_true, decide_eq_true_eq] at hin
  omega

theorem IsNumber.isField {t : Text} (h : IsNumber t) : IsField t :=
  ⟨h.1, fun c hc => isBlank_of_isDecimalDigit (h.2 c hc)⟩

theorem subset_trimNumber {c : Char} {t : Text} (h : c ∈ trimNumber t) : c ∈ t := by
  unfold trimNumber dropTrailing dropLeading at h
  rw [List.mem_reverse] at h
  have h := (List.dropWhile_sublist _).subset h
  rw [List.mem_reverse] at h
  exact (List.dropWhile_sublist _).subset h

/-- Blanks alone are no number. -/
theorem readInt_of_isBlankText {t : Text} (h : isBlankText t = true) : readInt t = none := by
  have hblank : ∀ c ∈ trimNumber t, isBlank c = true := fun c hc =>
    isBlank_of_mem h (subset_trimNumber hc)
  have hnat : readNat (trimNumber t) = none := by
    unfold readNat
    split
    · rfl
    · cases ht : trimNumber t with
      | nil => rfl
      | cons c r =>
        have hc : isBlank c = true := hblank c (by rw [ht]; exact List.mem_cons_self)
        have hdigit : digitValue? c = none := by
          rw [← Option.not_isSome_iff_eq_none]
          intro hsome
          rw [isBlank_of_isDecimalDigit hsome] at hc
          cases hc
        rw [readDigits, hdigit]
        · rfl
        · rintro rfl
          exact absurd hc (by decide)
  unfold readInt
  split
  · rename_i r ht
    exact absurd (hblank '+' (by rw [ht]; exact List.mem_cons_self)) (by decide)
  · rename_i r ht
    exact absurd (hblank '-' (by rw [ht]; exact List.mem_cons_self)) (by decide)
  · rw [hnat]
    rfl

theorem isBlankText_of_readInt {t : Text} {n : Int} (h : readInt t = some n) :
    isBlankText t = false := by
  refine Bool.eq_false_iff.2 fun hblank => ?_
  rw [readInt_of_isBlankText hblank] at h
  cases h

end Text

end Renaming
