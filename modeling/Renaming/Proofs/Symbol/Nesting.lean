import Mathlib.Data.List.Basic
import Renaming.Symbol.Nesting

/-!
# `Proofs/Symbol/Nesting` — the nearest enclosing class decides

`resolveNested` goes outward from a class, one dollar sign at a time, and on the way back puts the
rest of the name on again. Nothing that calls it cares about the way; what matters is where it
stops:

> the longest enclosing name with a rename of its own decides, and the rest of the name stays.

`Encloses` says which names are asked, `IsNearest` which of them decides, and
`resolveNested_of_isNearest` what the answer is. With `exists_isNearest` every use of
`resolveNested` is one case split.
-/

set_option autoImplicit false

namespace Renaming

/-- A class is enclosed by itself and by every part of its name, not the empty one, that a dollar
sign ends. -/
def Encloses (outer name : Text) : Prop :=
  outer = name ∨ outer ≠ [] ∧ ∃ inner, name = outer ++ '$' :: inner

theorem Encloses.refl (name : Text) : Encloses name name := .inl rfl

/-- What stands behind an enclosing name. -/
theorem Encloses.exists_rest {outer name : Text} (h : Encloses outer name) :
    ∃ rest, name = outer ++ rest ∧ (rest = [] ∨ outer ≠ [] ∧ ∃ inner, rest = '$' :: inner) := by
  rcases h with rfl | ⟨hne, inner, rfl⟩
  · exact ⟨[], by simp, .inl rfl⟩
  · exact ⟨'$' :: inner, rfl, .inr ⟨hne, inner, rfl⟩⟩

theorem Encloses.trans {a b c : Text} (hab : Encloses a b) (hbc : Encloses b c) :
    Encloses a c := by
  rcases hab with rfl | ⟨hne, inner, rfl⟩
  · exact hbc
  · rcases hbc with rfl | ⟨-, inner', rfl⟩
    · exact .inr ⟨hne, inner, rfl⟩
    · exact .inr ⟨hne, inner ++ '$' :: inner', by simp⟩

/-- Of two names that enclose a third, the shorter encloses the longer. -/
theorem Encloses.of_length_le {a b c : Text} (hac : Encloses a c) (hbc : Encloses b c)
    (hle : a.length ≤ b.length) : Encloses a b := by
  obtain ⟨r, rfl, hr⟩ := hac.exists_rest
  obtain ⟨s, hs, -⟩ := hbc.exists_rest
  obtain ⟨d, rfl⟩ := List.prefix_of_prefix_length_le (List.prefix_append a r)
    (hs ▸ List.prefix_append b s) hle
  rw [List.append_assoc] at hs
  obtain rfl := List.append_cancel_left hs
  rcases hr with hr | ⟨hne, inner, hr⟩
  · obtain ⟨rfl, -⟩ := List.append_eq_nil_iff.1 hr
    exact .inl (by simp)
  · cases d with
    | nil => exact .inl (by simp)
    | cons x d =>
      obtain ⟨rfl, -⟩ := List.cons.inj hr
      exact .inr ⟨hne, d, rfl⟩

/-- Going one dollar sign outward passes over no enclosing name. -/
theorem encloses_append_iff {o outer inner : Text} (hi : '$' ∉ inner) (ho : outer ≠ []) :
    Encloses o (outer ++ '$' :: inner) ↔ o = outer ++ '$' :: inner ∨ Encloses o outer := by
  constructor
  · rintro (rfl | h)
    · exact .inl rfl
    · refine .inr (Encloses.of_length_le (.inr h) (.inr ⟨ho, inner, rfl⟩) ?_)
      obtain ⟨-, i, hi'⟩ := h
      -- were `o` longer, its dollar sign would lie in `inner`
      by_contra hlt
      rcases List.append_eq_append_iff.1 hi' with ⟨d, rfl, h'⟩ | ⟨d, rfl, h'⟩
      · cases d with
        | nil => simp at hlt
        | cons x d =>
          obtain ⟨-, rfl⟩ := List.cons.inj h'
          exact hi (by simp)
      · simp at hlt
  · rintro (rfl | h)
    · exact .refl _
    · exact h.trans (.inr ⟨ho, inner, rfl⟩)

/-- A name is enclosed by itself alone when no dollar sign ends a part of it. -/
theorem eq_of_encloses {o name : Text} (h : Encloses o name)
    (hn : ∀ outer inner, name = outer ++ '$' :: inner → '$' ∉ inner → outer = []) : o = name := by
  rcases h with rfl | ⟨hne, inner, rfl⟩
  · rfl
  · cases hcut : Text.cutLast '$' (o ++ '$' :: inner) with
    | none => exact absurd (Text.cutLast_eq_none_iff.1 hcut) (by simp)
    | some p =>
      obtain ⟨outer, inner'⟩ := p
      obtain ⟨hp, hi⟩ := Text.cutLast_eq_some_iff.1 hcut
      obtain rfl := hn _ _ hp hi
      cases o with
      | nil => exact absurd rfl hne
      | cons x o =>
        rw [List.cons_append, List.nil_append, List.cons.injEq] at hp
        exact absurd (by rw [← hp.2]; simp) hi

/-! ## The enclosing class that decides -/

/-- The longest enclosing name with a rename of its own, that rename, and the rest of the name. -/
structure IsNearest (find : Text → Option Text) (name outer mapped rest : Text) : Prop where
  split : name = outer ++ rest
  encloses : Encloses outer name
  own : find outer = some mapped
  nearest : ∀ o, Encloses o name → outer.length < o.length → find o = none

theorem resolveNested_of_find {find : Text → Option Text} {name mapped : Text}
    (h : find name = some mapped) : resolveNested find name = mapped := by
  rw [resolveNested, h]

theorem resolveNested_of_cutLast {find : Text → Option Text} {name outer inner : Text}
    (h : find name = none) (hcut : name = outer ++ '$' :: inner) (hi : '$' ∉ inner)
    (ho : outer ≠ []) :
    resolveNested find name =
      if resolveNested find outer = outer then name
      else resolveNested find outer ++ '$' :: inner := by
  have hcut' : Text.cutLast '$' name = some (outer, inner) :=
    Text.cutLast_eq_some_iff.2 ⟨hcut, hi⟩
  rw [resolveNested_eq, h, hcut']
  exact if_neg (by simpa using ho)

theorem resolveNested_of_outermost {find : Text → Option Text} {name : Text}
    (h : find name = none)
    (hn : ∀ outer inner, name = outer ++ '$' :: inner → '$' ∉ inner → outer = []) :
    resolveNested find name = name := by
  rw [resolveNested_eq, h]
  dsimp only
  split
  · rename_i o i hoi
    obtain ⟨hcut, hi⟩ := Text.cutLast_eq_some_iff.1 hoi
    rw [hn o i hcut hi]
    rfl
  · rfl

/-- A class either stands alone or has a class around it, one dollar sign outward. -/
theorem outermost_or_exists_outer (name : Text) :
    (∀ outer inner, name = outer ++ '$' :: inner → '$' ∉ inner → outer = []) ∨
      ∃ outer inner, name = outer ++ '$' :: inner ∧ '$' ∉ inner ∧ outer ≠ [] := by
  by_cases h : ∃ outer inner, name = outer ++ '$' :: inner ∧ '$' ∉ inner ∧ outer ≠ []
  · exact .inr h
  · refine .inl fun outer inner hcut hi => ?_
    by_contra hne
    exact h ⟨outer, inner, hcut, hi, hne⟩

/-- Without a rename around it a class keeps its name. -/
theorem resolveNested_of_forall_none {find : Text → Option Text} {name : Text}
    (h : ∀ o, Encloses o name → find o = none) : resolveNested find name = name := by
  induction hn : name.length using Nat.strongRecOn generalizing name with
  | ind n ih =>
    rcases outermost_or_exists_outer name with hout | ⟨outer, inner, hcut, hi, ho⟩
    · exact resolveNested_of_outermost (h name (.refl name)) hout
    · have hlt : outer.length < n := by
        rw [← hn, hcut]; simp only [List.length_append, List.length_cons]; omega
      rw [resolveNested_of_cutLast (h name (.refl name)) hcut hi ho]
      exact if_pos (ih outer.length hlt
        (fun o hoe => h o (hoe.trans (.inr ⟨ho, inner, hcut⟩))) rfl)

/-- **The nearest enclosing class with a rename decides, and the rest of the name stays.** A class
renamed to itself renames nothing inside of it. -/
theorem resolveNested_of_isNearest {find : Text → Option Text} {name outer mapped rest : Text}
    (h : IsNearest find name outer mapped rest) :
    resolveNested find name = mapped ++ rest := by
  induction hn : name.length using Nat.strongRecOn generalizing name rest with
  | ind n ih =>
    by_cases hself : outer = name
    · subst hself
      have hrest : rest = [] := by simpa using h.split
      rw [resolveNested_of_find h.own, hrest, List.append_nil]
    · have hnone : find name = none := by
        refine h.nearest name (.refl name) ?_
        rcases h.encloses with e | ⟨-, inner, e⟩
        · exact absurd e hself
        · rw [e]; simp only [List.length_append, List.length_cons]; omega
      rcases outermost_or_exists_outer name with hout | ⟨o, inner, hcut, hi, ho⟩
      · exact absurd (eq_of_encloses h.encloses hout) hself
      · have hlt : o.length < n := by
          rw [← hn, hcut]; simp only [List.length_append, List.length_cons]; omega
        have houter : Encloses outer o := by
          have := h.encloses
          rw [hcut, encloses_append_iff hi ho, ← hcut] at this
          exact this.resolve_left hself
        obtain ⟨r, hr, -⟩ := houter.exists_rest
        have hrest : rest = r ++ '$' :: inner := by
          have := h.split
          rw [hcut, hr, List.append_assoc] at this
          exact (List.append_cancel_left this).symm
        have hrec : resolveNested find o = mapped ++ r :=
          ih o.length hlt ⟨hr, houter, h.own, fun o' ho' =>
            h.nearest o' (ho'.trans (.inr ⟨ho, inner, hcut⟩))⟩ rfl
        rw [resolveNested_of_cutLast hnone hcut hi ho, hrec, hrest]
        split
        · rename_i e
          rw [hcut, ← e, List.append_assoc]
        · rw [List.append_assoc]

/-- Of the enclosing names with a rename there is a nearest one, if there is any. -/
theorem exists_isNearest (find : Text → Option Text) (name : Text) :
    (∀ o, Encloses o name → find o = none) ∨
      ∃ outer mapped rest, IsNearest find name outer mapped rest := by
  induction hn : name.length using Nat.strongRecOn generalizing name with
  | ind n ih =>
    cases hfind : find name with
    | some mapped =>
      refine .inr ⟨name, mapped, [], by simp, .refl name, hfind, fun o ho hlt => ?_⟩
      obtain ⟨r, rfl, -⟩ := ho.exists_rest
      simp only [List.length_append] at hlt
      omega
    | none =>
      rcases outermost_or_exists_outer name with hout | ⟨o, inner, hcut, hi, ho⟩
      · refine .inl fun o hoe => ?_
        rw [eq_of_encloses hoe hout, hfind]
      · have hlt : o.length < n := by
          rw [← hn, hcut]; simp only [List.length_append, List.length_cons]; omega
        rcases ih o.length hlt o rfl with hnone | ⟨outer, mapped, rest, h⟩
        · refine .inl fun o' ho' => ?_
          rw [hcut, encloses_append_iff hi ho, ← hcut] at ho'
          rcases ho' with rfl | ho'
          · exact hfind
          · exact hnone o' ho'
        · refine .inr ⟨outer, mapped, rest ++ '$' :: inner, ?_, ?_, h.own, fun o' ho' hlt' => ?_⟩
          · rw [hcut, h.split, List.append_assoc]
          · exact h.encloses.trans (.inr ⟨ho, inner, hcut⟩)
          · rw [hcut, encloses_append_iff hi ho, ← hcut] at ho'
            rcases ho' with rfl | ho'
            · exact hfind
            · exact h.nearest o' ho' hlt'

end Renaming
