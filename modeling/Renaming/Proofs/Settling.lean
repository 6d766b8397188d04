import Renaming.Proofs.Ending
import Renaming.Symbol.Depth

/-!
# `Proofs/Settling` — what a computation comes to as the stack grows

A computation that is given a number of frames ends in one way on every stack that is deep enough
for it, and on any other it may find the stack full. `Settles` says which way this is. How deep the
stack has to be is a matter of the input, so it is left open here: what counts is that some depth is
enough, and that the frames cannot decide anything but whether there is an answer at all.

Each step of a computation settles for a reason of its own, by a depth that is checked. A
computation settles because its steps do, where a later step may depend on what the earlier ones
have settled at.
-/

set_option autoImplicit false

namespace Renaming

/-- In any number of frames the computation ends as `x` does, unless the stack is full, and from
some number on it is not. -/
def Settles {α : Type} (f : Nat → Except Fault α) (x : Except Fault α) : Prop :=
  ∃ depth, ∀ frames, f frames = x ∨ frames < depth ∧ f frames = .error .stackFull

namespace Settles

variable {α β : Type}

/-- What spends no frames has settled. -/
theorem const (x : Except Fault α) : Settles (fun _ => x) x := ⟨0, fun _ => .inl rfl⟩

theorem bind {f : Nat → Except Fault α} {x : Except Fault α} (h : Settles f x)
    {g : Nat → α → Except Fault β} {y : α → Except Fault β}
    (hg : ∀ a, x = .ok a → Settles (fun frames => g frames a) (y a)) :
    Settles (fun frames => f frames >>= g frames) (x >>= y) := by
  obtain ⟨depth, hdepth⟩ := h
  cases x with
  | error e =>
    refine ⟨depth, fun frames => ?_⟩
    dsimp only
    obtain hf | ⟨hlt, hf⟩ := hdepth frames
    · exact .inl (by rw [hf]; rfl)
    · exact .inr ⟨hlt, by rw [hf]; rfl⟩
  | ok a =>
    obtain ⟨rest, hrest⟩ := hg a rfl
    refine ⟨max depth rest, fun frames => ?_⟩
    dsimp only
    obtain hf | ⟨hlt, hf⟩ := hdepth frames
    · rw [hf]
      obtain hy | ⟨hlt, hy⟩ := hrest frames
      · exact .inl hy
      · exact .inr ⟨Nat.lt_of_lt_of_le hlt (Nat.le_max_right _ _), hy⟩
    · exact .inr ⟨Nat.lt_of_lt_of_le hlt (Nat.le_max_left _ _), by rw [hf]; rfl⟩

/-- Going through a list settles when each of its members does. -/
theorem mapM {f : Nat → α → Except Fault β} {g : α → Except Fault β} {items : List α}
    (h : ∀ a ∈ items, Settles (fun frames => f frames a) (g a)) :
    Settles (fun frames => items.mapM (f frames)) (items.mapM g) := by
  induction items with
  | nil => exact const _
  | cons a items ih =>
    simp only [List.mapM_cons]
    refine (h a List.mem_cons_self).bind fun b _ => ?_
    exact (ih fun a ha => h a (List.mem_cons_of_mem _ ha)).bind fun bs _ => const _

/-- A loop settles when its step does, wherever it stands. -/
theorem foldlM {f : Nat → β → α → Except Fault β} {g : β → α → Except Fault β}
    (h : ∀ b a, Settles (fun frames => f frames b a) (g b a)) (items : List α) (b : β) :
    Settles (fun frames => items.foldlM (f frames) b) (items.foldlM g b) := by
  induction items generalizing b with
  | nil => exact const _
  | cons a items ih =>
    simp only [List.foldlM_cons]
    exact (h b a).bind fun b' _ => ih b'

end Settles

end Renaming
