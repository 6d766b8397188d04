import Mathlib.Data.List.Basic
import Renaming.Assembly.Literal

/-!
# `Proofs/Assembly/Zone` — literals as zones

`literals` lists the literals of a line by their places, `splitComment` goes by the zone of each
character. The passes ask the list ("does this part share a place with a literal?") while every
invariant about them is about zones, so the two have to be one fact:

> a part of a text shares no place with a literal exactly when it begins in code and holds no
> quote.

That is `literals_any_overlaps_iff`. The rest of the file is what zones do along an append.
-/

set_option autoImplicit false

namespace Renaming

namespace Assembly

namespace Zone

/-- The zone behind a text that begins in zone `z`. -/
def after (z : Zone) (t : Text) : Zone := t.foldl Zone.next z

@[simp] theorem after_nil (z : Zone) : z.after [] = z := rfl

@[simp] theorem after_cons (z : Zone) (c : Char) (t : Text) :
    z.after (c :: t) = (z.next c).after t := rfl

@[simp] theorem after_append (z : Zone) (s t : Text) : z.after (s ++ t) = (z.after s).after t :=
  List.foldl_append

/-- Code without a quote stays code. -/
theorem after_code {t : Text} (h : '"' ∉ t) : code.after t = code := by
  induction t with
  | nil => rfl
  | cons c r ih =>
    rw [List.mem_cons, not_or] at h
    rw [after_cons, next, if_neg (fun e => h.1 e.symm)]
    exact ih h.2

end Zone

/-! ## Where the literals of a text can lie -/

/-- In code, what was opened last no longer matters. -/
theorem literalsFrom_code (o o' k : Nat) (t : Text) :
    literalsFrom o .code k t = literalsFrom o' .code k t := by
  induction t generalizing k with
  | nil => rfl
  | cons c r ih =>
    rw [literalsFrom, literalsFrom]
    split
    · rfl
    · exact ih (k + 1)

/-- **What one character adds to the list**: the literal that it closes, if there is one. A quote in
code opens a literal, and until then it does not matter where the last one was opened. -/
theorem literalsFrom_cons (o k : Nat) (z : Zone) (c : Char) (t : Text) :
    literalsFrom o z k (c :: t) = (if z = .literal ∧ c = '"' then [⟨o, k + 1⟩] else []) ++
      literalsFrom (if z = .code then k else o) (z.next c) (k + 1) t := by
  cases z with
  | code =>
    rw [if_neg fun h => Zone.noConfusion h.1, if_pos rfl, List.nil_append, literalsFrom, Zone.next]
    split
    · rfl
    · exact literalsFrom_code o k (k + 1) t
  | literal =>
    rw [if_neg (by decide : ¬ Zone.literal = .code), literalsFrom, Zone.next]
    split
    · rename_i hc
      rw [if_neg fun h => absurd (hc.symm.trans h.2) (by decide), List.nil_append]
    · split
      · rename_i hc
        rw [if_pos ⟨rfl, hc⟩, List.singleton_append]
      · rename_i hc
        rw [if_neg fun h => hc h.2, List.nil_append]
  | guarded => rfl

/-- From code on, every literal lies ahead. -/
theorem le_start_of_mem_literalsFrom {t : Text} {o k b : Nat} {z : Zone} {s : Span}
    (ho : b ≤ o) (hk : b ≤ k) (h : s ∈ literalsFrom o z k t) : b ≤ s.start := by
  induction t generalizing o k z with
  | nil =>
    cases z <;> simp only [literalsFrom, List.not_mem_nil, List.mem_singleton] at h
    all_goals subst h; exact ho
  | cons c r ih =>
    rw [literalsFrom_cons, List.mem_append, List.mem_ite_nil_right, List.mem_singleton] at h
    rcases h with ⟨-, rfl⟩ | h
    · exact ho
    · refine ih ?_ (Nat.le_succ_of_le hk) h
      split
      · exact hk
      · exact ho

/-- Inside a literal, that literal is still to come in the list, and it reaches at least past the
next character. -/
theorem exists_literalsFrom_open {t : Text} {o k : Nat} {z : Zone} (hz : z ≠ .code) :
    ∃ s ∈ literalsFrom o z k t, s.start = o ∧ k ≤ s.stop ∧ (t ≠ [] → k < s.stop) := by
  induction t generalizing k z with
  | nil =>
    cases z with
    | code => exact absurd rfl hz
    | literal | guarded => exact ⟨⟨o, k⟩, by simp [literalsFrom], rfl, Nat.le_refl k, by simp⟩
  | cons c r ih =>
    -- whichever zone follows, the literal ends behind `c`
    have step : ∀ z' : Zone, z' ≠ .code → ∃ s ∈ literalsFrom o z' (k + 1) r,
        s.start = o ∧ k ≤ s.stop ∧ (c :: r ≠ [] → k < s.stop) := fun z' hz' =>
      let ⟨s, hs, hstart, hstop, _⟩ := ih (k := k + 1) hz'
      ⟨s, hs, hstart, by omega, fun _ => by omega⟩
    cases z with
    | code => exact absurd rfl hz
    | guarded => exact step .literal (by simp)
    | literal =>
      rw [literalsFrom]
      split
      · exact step _ (by simp)
      · split
        · exact ⟨⟨o, k + 1⟩, List.mem_cons_self, rfl, by simp, by simp⟩
        · exact step _ (by simp)

/-! ## Parts of a text that touch no literal -/

/-- Code that holds no quote passes by without a literal. -/
theorem literalsFrom_code_append {w : Text} (hw : '"' ∉ w) (o k : Nat) (t : Text) :
    literalsFrom o .code k (w ++ t) = literalsFrom o .code (k + w.length) t := by
  induction w generalizing k with
  | nil => rfl
  | cons c r ih =>
    rw [List.mem_cons, not_or] at hw
    rw [List.cons_append, literalsFrom, if_neg (fun e => hw.1 e.symm), ih hw.2, List.length_cons]
    congr 1
    omega

/-- A part at the very place reached: it touches no literal exactly when this place is in code and
the part holds no quote. -/
theorem literalsFrom_any_overlaps_here {w t : Text} {o k : Nat} {z : Zone} (hw : w ≠ [])
    (ho : o ≤ k) :
    (literalsFrom o z k (w ++ t)).any (Span.overlaps ⟨k, k + w.length⟩) = false ↔
      z = .code ∧ '"' ∉ w := by
  have hpos : 0 < w.length := List.length_pos_iff.2 hw
  constructor
  · intro h
    rw [List.any_eq_false] at h
    have hz : z = .code := by
      by_contra hz
      obtain ⟨s, hs, hstart, -, hstop⟩ :=
        exists_literalsFrom_open (t := w ++ t) (o := o) (k := k) hz
      refine h s hs ?_
      have := hstop (by simp [hw])
      simp only [Span.overlaps, Bool.and_eq_true, decide_eq_true_eq]
      omega
    refine ⟨hz, fun hq => ?_⟩
    -- the first quote of the part opens a literal inside of it
    obtain ⟨a, b, rfl, ha⟩ := List.eq_append_cons_of_mem hq
    subst hz
    rw [List.append_assoc, literalsFrom_code_append ha, List.cons_append, literalsFrom,
      if_pos rfl] at h
    obtain ⟨s, hs, hstart, hstop, -⟩ := exists_literalsFrom_open
      (t := b ++ t) (o := k + a.length) (k := k + a.length + 1) (z := .literal) (by simp)
    refine h s hs ?_
    simp only [Span.overlaps, List.length_append, List.length_cons, Bool.and_eq_true,
      decide_eq_true_eq]
    omega
  · rintro ⟨rfl, hq⟩
    rw [literalsFrom_code_append hq, literalsFrom_code o (k + w.length), List.any_eq_false]
    intro s hs
    have := le_start_of_mem_literalsFrom (Nat.le_refl _) (Nat.le_refl _) hs
    simp only [Span.overlaps, Bool.and_eq_true, decide_eq_true_eq]
    omega

theorem literalsFrom_any_overlaps_iff {a w t : Text} {o k : Nat} {z : Zone} (hw : w ≠ [])
    (ho : o ≤ k) :
    (literalsFrom o z k (a ++ (w ++ t))).any
        (Span.overlaps ⟨k + a.length, k + a.length + w.length⟩) = false ↔
      z.after a = .code ∧ '"' ∉ w := by
  induction a generalizing o k z with
  | nil => exact literalsFrom_any_overlaps_here hw ho
  | cons c r ih =>
    have hlen : k + (c :: r).length = k + 1 + r.length := by rw [List.length_cons]; omega
    have ho' : (if z = .code then k else o) ≤ k + 1 := by split <;> omega
    rw [hlen, Zone.after_cons, List.cons_append, literalsFrom_cons, List.any_append,
      Bool.or_eq_false_iff, ih ho']
    refine and_iff_right (List.any_eq_false.2 fun s hs => ?_)
    -- a literal that closes here ends in front of the part
    obtain ⟨-, hs⟩ := List.mem_ite_nil_right.1 hs
    obtain rfl := List.mem_singleton.1 hs
    simp only [Span.overlaps, Bool.and_eq_true, decide_eq_true_eq]
    omega

/-- **A part of a text touches no literal exactly when it begins in code and holds no quote.** -/
theorem literals_any_overlaps_iff {a w t : Text} (hw : w ≠ []) :
    (literals (a ++ (w ++ t))).any (Span.overlaps ⟨a.length, a.length + w.length⟩) = false ↔
      Zone.code.after a = .code ∧ '"' ∉ w := by
  have h := literalsFrom_any_overlaps_iff (a := a) (t := t) (z := .code) hw (Nat.le_refl 0)
  rwa [Nat.zero_add] at h

end Assembly

end Renaming
