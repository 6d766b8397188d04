import Mathlib.Data.List.DropRight
import Renaming.Proofs.Text.Span
import Renaming.Symbol.Package

/-!
# `Proofs/Symbol/Package` — the form of a package name, and when it lasts

A package name is brought into its form in three steps: blanks are taken off at both ends, a few
spellings of the root are looked for, and what is left loses its outer separators (`stem`) and gets
a slash. No step looks at what a later one lays bare, and behind outer separators there may be
nothing, or a blank. So the first character that is no separator (`start?`) decides:

> the form is the root or a prefix just when the name spells the root or has such a character
> (`canonical_form_iff`), and it stays as it is when it is written again just when that character is
> no blank (`canonical_canonical_iff`).

A form that does not stay is the single slash, which becomes the root, or it begins with a blank and
becomes shorter (`length_canonical_lt`).
-/

set_option autoImplicit false

namespace Renaming

namespace Package

/-- A mark between two parts of a package name. -/
def isSeparator (c : Char) : Bool := c == '.' || c == '/'

/-- The character with which the first part of a name begins. -/
def start? (name : Text) : Option Char := (Text.trim name).find? fun c => !isSeparator c

/-- The name spells the root, or its first part begins with no blank. -/
def WellSpelled (name : Text) : Prop :=
  Text.trim name ∈ rootSpellings ∨ ∃ c, start? name = some c ∧ Text.isBlank c = false

/-- The form of a package other than the root: something and a slash, with no slash in front and no
dot. -/
structure IsPrefix (p : Text) : Prop where
  ends : ∃ front, front ≠ [] ∧ p = front ++ ['/']
  first : p.head? ≠ some '/'
  dots : '.' ∉ p

/-! ## What stands between the outer separators -/

/-- The parts of a name with slashes between them, and none outside. -/
def stem (t : Text) : Text :=
  Text.dropTrailing (· == '/') (Text.dropLeading (· == '/') (Text.replaceChar '.' '/' t))

theorem canonical_eq (name : Text) :
    canonical name =
      if Text.trim name ∈ rootSpellings then root else stem (Text.trim name) ++ ['/'] := rfl

theorem canonical_root : canonical root = root := rfl

/-- No dot and no outer slash: there is nothing left to take off. -/
structure IsStem (s : Text) : Prop where
  dots : '.' ∉ s
  first : s.head? ≠ some '/'
  last : s.getLast? ≠ some '/'

theorem dot_notMem_replaceChar (t : Text) : '.' ∉ Text.replaceChar '.' '/' t := by
  simp only [Text.replaceChar, List.mem_map, not_exists, not_and]
  intro c _
  split
  · decide
  · assumption

/-- The first character that is no slash is the first of the text that is no separator. -/
theorem find?_replaceChar (t : Text) :
    (Text.replaceChar '.' '/' t).find? (fun c => !(c == '/')) = t.find? fun c => !isSeparator c := by
  induction t with
  | nil => rfl
  | cons c t ih =>
    simp only [Text.replaceChar, List.map_cons] at ih ⊢
    by_cases hdot : c = '.'
    · simp [hdot, isSeparator, ih]
    · by_cases hslash : c = '/'
      · simp [hslash, isSeparator, ih]
      · simp [hdot, hslash, isSeparator]

theorem head?_stem (t : Text) : (stem t).head? = t.find? fun c => !isSeparator c := by
  have hlead : (Text.dropLeading (· == '/') (Text.replaceChar '.' '/' t)).head? =
      t.find? fun c => !isSeparator c := by
    rw [Text.dropLeading, ← List.find?_not_eq_head?_dropWhile, find?_replaceChar]
  rw [stem, Text.head?_dropTrailing, hlead]
  intro c hc
  rw [hlead] at hc
  have hmark : isSeparator c = false := by simpa using List.find?_some hc
  exact (Bool.or_eq_false_iff.1 hmark).2

theorem isStem_stem (t : Text) : IsStem (stem t) where
  dots := by
    unfold stem
    rw [Text.mem_dropTrailing (by decide), Text.mem_dropLeading (by decide)]
    exact dot_notMem_replaceChar t
  first := by
    rw [head?_stem]
    intro h
    exact absurd (List.find?_some h) (by decide)
  last := by
    intro h
    have hne : stem t ≠ [] := fun e => by rw [e] at h; cases h
    have hlast := List.rdropWhile_last_not (fun c => c == '/') _ hne
    rw [List.getLast?_eq_some_getLast hne, Option.some.injEq] at h
    exact hlast (by rw [beq_iff_eq]; exact h)

theorem IsStem.stem_eq {s : Text} (h : IsStem s) : stem s = s := by
  have hreplace : Text.replaceChar '.' '/' s = s := by
    refine (List.map_congr_left fun c hc => ?_).trans (List.map_id s)
    refine if_neg ?_
    rintro rfl
    exact h.dots hc
  have hlead : Text.dropLeading (· == '/') s = s := by
    cases s with
    | nil => rfl
    | cons c s =>
      have hc : c ≠ '/' := fun e => h.first (congrArg some e)
      simp [Text.dropLeading, hc]
  rw [stem, hreplace, hlead]
  refine List.rdropWhile_eq_self_iff.2 fun hne hlast => h.last ?_
  rw [List.getLast?_eq_some_getLast hne, beq_iff_eq.1 hlast]

/-- A slash at the end is no part of the stem. -/
theorem stem_append_slash (t : Text) : stem (t ++ ['/']) = stem t := by
  have hreplace : Text.replaceChar '.' '/' (t ++ ['/']) = Text.replaceChar '.' '/' t ++ ['/'] := by
    simp [Text.replaceChar]
  rw [stem, hreplace, Text.dropTrailing_dropLeading_append (by rfl)]
  rfl

theorem length_stem_le (t : Text) : (stem t).length ≤ t.length := by
  calc (stem t).length
      ≤ (Text.dropLeading (· == '/') (Text.replaceChar '.' '/' t)).length :=
        (List.rdropWhile_prefix _ _).length_le
    _ ≤ (Text.replaceChar '.' '/' t).length := (List.dropWhile_suffix _).length_le
    _ = t.length := List.length_map _

/-- With a slash behind it a stem is no spelling of the root. -/
theorem IsStem.notMem_rootSpellings {s : Text} (h : IsStem s) (hne : s ≠ []) :
    s ++ ['/'] ∉ rootSpellings := by
  obtain ⟨c, r, rfl⟩ := List.exists_cons_of_ne_nil hne
  have hdot : c ≠ '.' := fun e => h.dots (by simp [e])
  have hslash : c ≠ '/' := fun e => h.first (by simp [e])
  simp [rootSpellings, hdot, hslash]

/-! ## The form of a name -/

/-- The stem is empty just when there are separators only. -/
theorem stem_trim_eq_nil_iff {name : Text} : stem (Text.trim name) = [] ↔ start? name = none := by
  rw [← List.head?_eq_none_iff, head?_stem, start?]

theorem IsStem.isPrefix {s : Text} (h : IsStem s) (hne : s ≠ []) : IsPrefix (s ++ ['/']) where
  ends := ⟨s, hne, rfl⟩
  first := by
    rw [List.head?_append_of_ne_nil _ hne]
    exact h.first
  dots := by simpa using h.dots

/-- **The form is the root or a prefix, unless the name consists of separators and yet does not
spell the root.** -/
theorem canonical_form_iff {name : Text} :
    canonical name = root ∨ IsPrefix (canonical name) ↔
      Text.trim name ∈ rootSpellings ∨ start? name ≠ none := by
  rw [canonical_eq]
  split
  · rename_i hroot
    exact iff_of_true (.inl rfl) (.inl hroot)
  · rename_i hroot
    rw [or_iff_right hroot, Ne, ← stem_trim_eq_nil_iff]
    constructor
    · intro hform hnil
      -- a single slash is neither
      rw [hnil] at hform
      rcases hform with hform | hform
      · exact absurd hform (by decide)
      · exact hform.first rfl
    · intro hne
      exact .inr ((isStem_stem _).isPrefix hne)

/-! ## The form written again -/

/-- The slash keeps the blanks in front of it, so only those at the beginning are taken off. -/
theorem canonical_stem_append_slash (s : Text) :
    canonical (s ++ ['/']) =
      if Text.trimLeft s ++ ['/'] ∈ rootSpellings then root
      else stem (Text.trimLeft s) ++ ['/'] := by
  rw [canonical_eq, Text.trim_append _ (by decide), stem_append_slash]

/-- **A form that begins with a blank loses it.** -/
theorem length_canonical_lt {c : Char} (hc : Text.isBlank c = true) (s : Text) :
    (canonical (c :: s ++ ['/'])).length < (c :: s ++ ['/']).length := by
  have hleft : Text.trimLeft (c :: s) = Text.trimLeft s := by
    simp [Text.trimLeft, Text.dropLeading, hc]
  have hstem : (stem (Text.trimLeft s)).length ≤ s.length :=
    (length_stem_le _).trans (List.dropWhile_suffix _).length_le
  rw [canonical_stem_append_slash, hleft]
  split
  · simp [root]
  · simp only [List.length_append, List.length_cons, List.length_nil]
    omega

theorem IsStem.canonical_eq_iff {s : Text} (h : IsStem s) :
    canonical (s ++ ['/']) = s ++ ['/'] ↔ ∃ c, s.head? = some c ∧ Text.isBlank c = false := by
  cases s with
  | nil => exact iff_of_false (by decide) (by rintro ⟨c, hc, -⟩; cases hc)
  | cons c s =>
    have hhead : (∃ d, (c :: s).head? = some d ∧ Text.isBlank d = false) ↔
        Text.isBlank c = false := by simp
    rw [hhead]
    cases hc : Text.isBlank c with
    | true =>
      refine iff_of_false (fun e => ?_) (by decide)
      exact absurd (congrArg List.length e) (length_canonical_lt hc s).ne
    | false =>
      refine iff_of_true ?_ rfl
      have hleft : Text.trimLeft (c :: s) = c :: s := by
        simp [Text.trimLeft, Text.dropLeading, hc]
      rw [canonical_stem_append_slash, hleft, if_neg (h.notMem_rootSpellings (by simp)), h.stem_eq]

/-- **The form stays as it is just where the name is well spelled.** -/
theorem canonical_canonical_iff {name : Text} :
    canonical (canonical name) = canonical name ↔ WellSpelled name := by
  rw [WellSpelled, canonical_eq name]
  split
  · rename_i hroot
    exact iff_of_true canonical_root (.inl hroot)
  · rename_i hroot
    rw [or_iff_right hroot, (isStem_stem _).canonical_eq_iff, head?_stem, start?]

/-- A form that lasts may stand for a name. -/
theorem wellSpelled_of_canonical_eq {p : Text} (h : canonical p = p) : WellSpelled p :=
  canonical_canonical_iff.1 (by rw [h, h])

end Package

end Renaming
