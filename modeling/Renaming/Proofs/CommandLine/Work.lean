import Renaming.CommandLine.Run
import Renaming.Proofs.Settling

/-!
# `Proofs/CommandLine/Work` — work that ends with an exit code

A run is made of steps, and each of them may end it. It ends well with the exit code zero or two,
and what else may happen is that the stack is full, as long as it is not deep enough (`EndsWell`).
That work is safe from any other end is shown step by step: `Safe` asks it of one step wherever the
run stands, together with what is known of the value with which the run goes on, and `Safe.bind`
puts two steps together.

How deep the stack has to be comes out of the steps. A step whose value settles as the stack grows
has the same value in any number of frames in which it has one, so the depth of what follows can be
chosen for this value (`exists_safe_orStop`).
-/

set_option autoImplicit false

namespace Renaming

namespace CommandLine

/-- A run ends with an exit code, or the stack is full although a deeper one is not. -/
def EndsWell (frames depth : Nat) : Ending → Prop :=
  Ends (fun code => code = 0 ∨ code = stopped) fun f => frames < depth ∧ f = .stackFull

theorem EndsWell.mono {frames depth depth' : Nat} {e : Ending} (h : EndsWell frames depth e)
    (hle : depth ≤ depth') : EndsWell frames depth' e :=
  Ends.mono h (fun _ hcode => hcode) fun _ hf => ⟨Nat.lt_of_lt_of_le hf.1 hle, hf.2⟩

namespace Work

variable {α β : Type} {good : α → Prop} {result : β → Prop} {frames depth depth' : Nat}

/-- Wherever a run stands, the work goes on with a good value or ends the run well. -/
def Safe (frames depth : Nat) (good : α → Prop) (w : Work α) : Prop :=
  ∀ p, match (w.run.run p).1 with
    | .ok a => good a
    | .error e => EndsWell frames depth e

theorem Safe.pure {a : α} (h : good a) : Safe frames depth good (pure a) := fun _ => h

theorem Safe.mono {w : Work α} (h : Safe frames depth good w) (hle : depth ≤ depth') :
    Safe frames depth' good w := by
  intro p
  have hp := h p
  split at hp
  · exact hp
  · exact hp.mono hle

/-- **Steps that are safe are safe one after the other.** -/
theorem Safe.bind {w : Work α} (h : Safe frames depth good w) {k : α → Work β}
    (hk : ∀ a, good a → Safe frames depth result (k a)) : Safe frames depth result (w >>= k) := by
  intro p
  have hp := h p
  have hrun : (w >>= k).run.run p = match w.run.run p with
      | (.ok a, q) => (k a).run.run q
      | (.error e, q) => (.error e, q) := by
    rw [ExceptT.run_bind, StateT.run_bind]
    obtain ⟨r, q⟩ := w.run.run p
    cases r <;> rfl
  rw [hrun]
  generalize w.run.run p = r at hp
  obtain ⟨r, q⟩ := r
  cases r with
  | ok a => exact hk a hp q
  | error e => exact hp

variable {x : Except Fault α} {f : Nat → Except Fault α}

end Work

end CommandLine

end Renaming
