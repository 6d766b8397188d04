import Renaming.Symbol.Nesting
import Renaming.Fault

/-!
# `Symbol/Depth` — how many frames a look-up takes

A class without a rename of its own is looked up by a call for the class around it, which may call
again, so a look-up takes one frame of the stack for each class that it asks (`nestingDepth`). The
stack is finite, and nothing bounds the dollar signs in a name: a name with more of them than there
are frames left ends whatever the look-up was for. `resolveNestedWithin` is the look-up that has a
number of frames to spend, and

> it answers what the look-up without a bound answers, or the stack is full, and which of the two
> is a matter of the depth alone (`resolveNestedWithin_eq`).

So what is computed from look-ups can be said without a bound, and a depth beside it says when it
can be computed. Frames are counted from the call of a look-up on. What else is on the stack by then
differs by a few frames from one look-up to the next; here all of them find the same number left.
-/

set_option autoImplicit false

namespace Renaming

/-- The number of calls, one inside the other, in which a class is looked up. -/
def nestingDepth (find : Text → Option Text) (name : Text) : Nat :=
  match find name with
  | some _ => 1
  | none =>
    match h : Text.cutLast '$' name with
    | some (outer, _) =>
      if outer.isEmpty then 1
      else
        have : outer.length < name.length := Text.length_lt_of_cutLast h
        nestingDepth find outer + 1
    | none => 1
termination_by name.length

/-- The look-up of a class that has a number of frames to spend. -/
def resolveNestedWithin : Nat → (Text → Option Text) → Text → Except Fault Text
  | 0, _, _ => .error .stackFull
  | frames + 1, find, name =>
    match find name with
    | some mapped => .ok mapped
    | none =>
      match Text.cutLast '$' name with
      | some (outer, inner) =>
        if outer.isEmpty then .ok name
        else do
          let mapped ← resolveNestedWithin frames find outer
          return if mapped = outer then name else mapped ++ '$' :: inner
      | none => .ok name

/-- Refuses what takes more frames than there are. -/
def checkDepth (frames depth : Nat) : Except Fault Unit :=
  if depth ≤ frames then .ok () else .error .stackFull

def deepest (depths : List Nat) : Nat := depths.foldr max 0

theorem nestingDepth_eq (find : Text → Option Text) (name : Text) :
    nestingDepth find name =
      match find name with
      | some _ => 1
      | none =>
        match Text.cutLast '$' name with
        | some (outer, _) => if outer.isEmpty then 1 else nestingDepth find outer + 1
        | none => 1 := by
  rw [nestingDepth]
  split
  · rfl
  · split
    · rename_i hcut
      simp only [hcut]
    · rename_i hcut
      simp only [hcut]

theorem one_le_nestingDepth (find : Text → Option Text) (name : Text) :
    1 ≤ nestingDepth find name := by
  rw [nestingDepth_eq]
  split
  · exact Nat.le_refl 1
  · split
    · split
      · exact Nat.le_refl 1
      · exact Nat.le_add_left 1 _
    · exact Nat.le_refl 1

/-- **A look-up answers in any number of frames that is enough for it, and what it answers does not
depend on this number.** -/
theorem resolveNestedWithin_eq (frames : Nat) (find : Text → Option Text) (name : Text) :
    resolveNestedWithin frames find name =
      if nestingDepth find name ≤ frames then .ok (resolveNested find name)
      else .error .stackFull := by
  induction frames generalizing name with
  | zero => rw [resolveNestedWithin, if_neg (Nat.not_le.2 (one_le_nestingDepth find name))]
  | succ frames ih =>
    have hone : 1 ≤ frames + 1 := Nat.le_add_left 1 frames
    rw [resolveNestedWithin, nestingDepth_eq, resolveNested_eq]
    cases find name with
    | some mapped => exact (if_pos hone).symm
    | none =>
      dsimp only
      cases Text.cutLast '$' name with
      | none => exact (if_pos hone).symm
      | some p =>
        obtain ⟨outer, inner⟩ := p
        dsimp only
        by_cases hempty : outer.isEmpty = true
        · simp only [if_pos hempty, if_pos hone]
        · -- the call for the class around has one frame less, and its depth is one less
          simp only [if_neg hempty, ih outer, Nat.add_le_add_iff_right]
          split
          · rfl
          · rfl

/-- A look-up asks no more classes than the name and one for each dollar sign in it. -/
theorem nestingDepth_le (find : Text → Option Text) (name : Text) :
    nestingDepth find name ≤ name.count '$' + 1 := by
  fun_induction nestingDepth find name with
  | case1 name mapped h => exact Nat.le_add_left 1 _
  | case2 name h outer inner hcut hempty => exact Nat.le_add_left 1 _
  | case3 name h outer inner hcut hempty hlt ih =>
    rw [(Text.cutLast_eq_some_iff.1 hcut).1, List.count_append, List.count_cons_self]
    omega
  | case4 name h hcut => exact Nat.le_add_left 1 _

/-- Where no class is renamed, a look-up asks just as many classes, unless the name begins with a
dollar sign. -/
theorem nestingDepth_of_none {find : Text → Option Text} (hfind : ∀ outer, find outer = none)
    {name : Text} (hname : name.head? ≠ some '$') :
    nestingDepth find name = name.count '$' + 1 := by
  fun_induction nestingDepth find name with
  | case1 name mapped h =>
    rw [hfind] at h
    cases h
  | case2 name h outer inner hcut hempty =>
    obtain rfl := List.isEmpty_iff.1 hempty
    rw [(Text.cutLast_eq_some_iff.1 hcut).1] at hname
    exact absurd rfl hname
  | case3 name h outer inner hcut hempty hlt ih =>
    obtain ⟨rfl, hinner⟩ := Text.cutLast_eq_some_iff.1 hcut
    have houter : outer.head? ≠ some '$' := by
      cases outer with
      | nil => exact absurd rfl hempty
      | cons c cs => exact hname
    rw [ih houter, List.count_append, List.count_cons_self, List.count_eq_zero.2 hinner]
  | case4 name h hcut => rw [List.count_eq_zero.2 (Text.cutLast_eq_none_iff.1 hcut)]

theorem deepest_le_iff {depths : List Nat} {n : Nat} :
    deepest depths ≤ n ↔ ∀ d ∈ depths, d ≤ n := by
  induction depths with
  | nil => exact iff_of_true (Nat.zero_le n) fun d hd => absurd hd List.not_mem_nil
  | cons d depths ih =>
    rw [List.forall_mem_cons, ← ih]
    exact Nat.max_le

end Renaming
