import Renaming.Proofs.FileTree.Product
import Renaming.Proofs.FileTree.Replaced

/-!
# `Proofs/FileTree/Run` — jobs one after the other, in any order

A job touches two places, and what it reads it has read before the first job was done. So it matters
little in which order jobs are done: after a run, a place that is no temporary file's holds what it
held before or what a job wrote there (`content?_runJobs`), and if every write succeeded and all who
wrote there wrote the same, it holds just that (`content?_runJobs_of_allWritten`). The first says
what a failing run can leave behind, the second what a run is for.

The answers are looked up by the paths of the sources, so the order does not show in them either
(`outcomes_runJobs`).
-/

set_option autoImplicit false

namespace Renaming

namespace FileTree

variable {table : Table} {output : Path}

namespace Job

/-- The places that a job may touch: its file's, and that of the temporary file beside it. -/
def touched (table : Table) (output : Path) (j : Job) : List Place :=
  [(j.product table output).destination.place,
    (temporary (j.product table output).destination).place]

/-- The tree after a job is that after the writing. -/
theorem run_fst (table : Table) (output : Path) (j : Job) (t : FileTree) :
    (j.run table output t).1 =
      (t.replace (j.product table output).destination (j.product table output).content).1 := by
  simp only [run]
  split
  · rename_i h
    rw [h]
  · rename_i h
    rw [h]

/-- A job is answered by its report unless the writing fails. -/
theorem run_snd (table : Table) (output : Path) (j : Job) (t : FileTree) :
    (j.run table output t).2 =
      (t.replace (j.product table output).destination (j.product table output).content).2 >>=
        fun _ => j.report table output := by
  simp only [run]
  split
  · rename_i h
    rw [h]
    rfl
  · rename_i h
    rw [h]
    rfl

theorem replaced_run {j : Job} (h : (j.product table output).destination.IsAssembly)
    (t : FileTree) :
    Replaced (j.product table output).destination (newContent table j.content) t
      (t.replace (j.product table output).destination (j.product table output).content) := by
  rw [content_product]
  exact replaced_replace (Path.place_ne_place_temporary h h) _ t

end Job

/-- Whether every job can write its file when they are done in this order. -/
def allWritten (table : Table) (output : Path) : List Job → FileTree → Bool
  | [], _ => true
  | j :: js, t =>
    let p := j.product table output
    let r := t.replace p.destination p.content
    r.2.isOk && allWritten table output js r.1

/-- Whether every job writes an assembly file. -/
def AllAssembly (table : Table) (output : Path) (js : List Job) : Prop :=
  ∀ j ∈ js, (j.product table output).destination.IsAssembly

variable {j : Job} {js : List Job} {t : FileTree}

theorem allWritten_cons :
    allWritten table output (j :: js) t = true ↔
      (t.replace (j.product table output).destination (j.product table output).content).2 = .ok () ∧
        allWritten table output js (j.run table output t).1 = true := by
  rw [allWritten, Bool.and_eq_true, Job.run_fst]
  refine and_congr ?_ Iff.rfl
  cases (t.replace (j.product table output).destination (j.product table output).content).2 with
  | error f => simp [Except.isOk, Except.toBool]
  | ok u => simp [Except.isOk, Except.toBool]

/-! ## The tree after a run -/

theorem runJobs_cons_fst (table : Table) (output : Path) (j : Job) (js : List Job) (t : FileTree) :
    (runJobs table output (j :: js) t).1 =
      (runJobs table output js (j.run table output t).1).1 := rfl

theorem keptBut_runJobs (h : AllAssembly table output js) (t : FileTree) :
    KeptBut (js.flatMap (Job.touched table output)) t (runJobs table output js t).1 := by
  induction js generalizing t with
  | nil => exact .refl [] t
  | cons j js ih =>
    have hj := (Job.replaced_run (h j List.mem_cons_self) t).kept
    rw [← Job.run_fst] at hj
    rw [runJobs_cons_fst, List.flatMap_cons]
    exact hj.append (ih (fun k hk => h k (List.mem_cons_of_mem _ hk)) _)

/-- A place that a job may touch is its file's or its temporary file's. -/
theorem mem_touched_iff {q : Place} :
    q ∈ js.flatMap (Job.touched table output) ↔
      ∃ j ∈ js, q = (j.product table output).destination.place ∨
        q = (temporary (j.product table output).destination).place := by
  simp [Job.touched, List.mem_flatMap]

/-- Where some jobs settle what is at a place, each in the same way, and the others leave it alone,
the place holds this at last, unless no job settles it. -/
theorem content?_runJobs_of_settles {q : Place} {c : Option Bytes} {settles : Job → Prop}
    (hstep : ∀ j ∈ js, ∀ t : FileTree,
      (t.replace (j.product table output).destination (j.product table output).content).2 = .ok () →
        (settles j → (j.run table output t).1.content? q = c) ∧
        (¬ settles j → (j.run table output t).1.content? q = t.content? q))
    (hwritten : allWritten table output js t = true)
    (hsome : (∃ j ∈ js, settles j) ∨ t.content? q = c) :
    (runJobs table output js t).1.content? q = c := by
  induction js generalizing t with
  | nil =>
    obtain ⟨j, hj, -⟩ | hc := hsome
    · cases hj
    · exact hc
  | cons j js ih =>
    obtain ⟨hok, hrest⟩ := allWritten_cons.1 hwritten
    obtain ⟨hsettled, hkept⟩ := hstep j List.mem_cons_self t hok
    rw [runJobs_cons_fst]
    refine ih (fun k hk => hstep k (List.mem_cons_of_mem _ hk)) hrest ?_
    by_cases hj : settles j
    · -- It may be the last one that does.
      exact .inr (hsettled hj)
    · obtain ⟨k, hk, hk'⟩ | hc := hsome
      · rcases List.mem_cons.1 hk with rfl | hk
        · exact absurd hk' hj
        · exact .inl ⟨k, hk, hk'⟩
      · exact .inr ((hkept hj).trans hc)

section Content

variable {d : Path} (hd : d.IsAssembly)

include hd

/-- At a place of an assembly file there is what was there, or what a job wrote. -/
theorem content?_runJobs (h : AllAssembly table output js) (t : FileTree) :
    (runJobs table output js t).1.content? d.place = t.content? d.place ∨
      ∃ j ∈ js, (j.product table output).destination.place = d.place ∧
        (runJobs table output js t).1.content? d.place = some (newContent table j.content) := by
  induction js generalizing t with
  | nil => exact .inl rfl
  | cons j js ih =>
    have hrun := Job.replaced_run (h j List.mem_cons_self) t
    rw [runJobs_cons_fst]
    obtain hsame | ⟨k, hk, hplace, hnew⟩ :=
      ih (fun k hk => h k (List.mem_cons_of_mem _ hk)) (j.run table output t).1
    · -- The later jobs have left alone what this one has left there.
      rw [hsame, Job.run_fst]
      by_cases hplace : (j.product table output).destination.place = d.place
      · cases hok : (t.replace (j.product table output).destination
            (j.product table output).content).2 with
        | ok u =>
          refine .inr ⟨j, List.mem_cons_self, hplace, ?_⟩
          rw [← hplace]
          exact (hrun.written hok).1
        | error f =>
          refine .inl ?_
          rw [← hplace]
          exact hrun.restored (by simp [hok])
      · refine .inl (hrun.kept.content _ ?_)
        have htemporary := Path.place_ne_place_temporary hd (h j List.mem_cons_self)
        simp [Ne.symm hplace, htemporary]
    · exact .inr ⟨k, List.mem_cons_of_mem _ hk, hplace, hnew⟩

/-- Where every job that has this destination writes the same, this is there at last. -/
theorem content?_runJobs_of_allWritten (h : AllAssembly table output js)
    (hwritten : allWritten table output js t = true) {b : Bytes}
    (hsome : (∃ j ∈ js, (j.product table output).destination.place = d.place) ∨
      t.content? d.place = some b)
    (hsame : ∀ j ∈ js, (j.product table output).destination.place = d.place →
      newContent table j.content = b) :
    (runJobs table output js t).1.content? d.place = some b := by
  refine content?_runJobs_of_settles (fun j hj t hok => ?_) hwritten hsome
  have hrun := Job.replaced_run (h j hj) t
  refine ⟨fun hplace => ?_, fun hplace => ?_⟩
  · rw [Job.run_fst, ← hplace, ← hsame j hj hplace]
    exact (hrun.written hok).1
  · have htemporary := Path.place_ne_place_temporary hd (h j hj)
    rw [Job.run_fst, hrun.kept.content _ (by simp [Ne.symm hplace, htemporary])]

/-- No job that wrote its file leaves its temporary file behind. -/
theorem content?_temporary_runJobs (h : AllAssembly table output js)
    (hwritten : allWritten table output js t = true)
    (hnone : (∃ j ∈ js, (temporary (j.product table output).destination).place =
        (temporary d).place) ∨ t.content? (temporary d).place = none) :
    (runJobs table output js t).1.content? (temporary d).place = none := by
  refine content?_runJobs_of_settles (fun j hj t hok => ?_) hwritten hnone
  have hrun := Job.replaced_run (h j hj) t
  refine ⟨fun hplace => ?_, fun hplace => ?_⟩
  · rw [Job.run_fst, ← hplace]
    exact (hrun.written hok).2
  · have hdestination := Path.place_ne_place_temporary (h j hj) hd
    rw [Job.run_fst, hrun.kept.content _ (by simp [Ne.symm hplace, Ne.symm hdestination])]

end Content

/-! ## The answers of a run -/

theorem map_fst_runJobs (table : Table) (output : Path) (js : List Job) (t : FileTree) :
    (runJobs table output js t).2.map Prod.fst = js.map Job.source := by
  induction js generalizing t with
  | nil => rfl
  | cons j js ih =>
    show j.source :: (runJobs table output js (j.run table output t).1).2.map Prod.fst = _
    rw [ih]
    rfl

theorem runJobs_snd (hwritten : allWritten table output js t = true) :
    (runJobs table output js t).2 = js.map fun j => (j.source, j.report table output) := by
  induction js generalizing t with
  | nil => rfl
  | cons j js ih =>
    obtain ⟨hok, hrest⟩ := allWritten_cons.1 hwritten
    show (j.source, (j.run table output t).2) ::
      (runJobs table output js (j.run table output t).1).2 = _
    rw [ih hrest, Job.run_snd, hok]
    rfl

/-- A run in which no job fails has written every file. -/
theorem allWritten_of_ok (h : ∀ r ∈ (runJobs table output js t).2, ∃ o, r.2 = .ok o) :
    allWritten table output js t = true := by
  induction js generalizing t with
  | nil => rfl
  | cons j js ih =>
    rw [allWritten_cons]
    constructor
    · obtain ⟨o, ho⟩ := h (j.source, (j.run table output t).2) List.mem_cons_self
      rw [show (j.source, (j.run table output t).2).2 = (j.run table output t).2 from rfl,
        Job.run_snd] at ho
      cases hr : (t.replace (j.product table output).destination
          (j.product table output).content).2 with
      | ok u => rfl
      | error f =>
        rw [hr] at ho
        cases ho
    · exact ih fun r hr => h r (List.mem_cons_of_mem _ hr)

theorem lookup_of_mem {κ α : Type} [DecidableEq κ] {l : List (κ × α)} (h : (l.map Prod.fst).Nodup)
    {k : κ} {v : α} (hmem : (k, v) ∈ l) : l.lookup k = some v := by
  obtain ⟨l₁, l₂, rfl⟩ := List.append_of_mem hmem
  rw [List.lookup_eq_some_iff]
  refine ⟨l₁, l₂, rfl, fun p hp => ?_⟩
  rw [List.map_append, List.nodup_append] at h
  have hne := h.2.2 p.1 (List.mem_map_of_mem hp) k (by simp)
  simpa using Ne.symm hne

/-- The outcomes of jobs are refused for a reason that one of them was refused for. -/
theorem ends_outcomes {fault : Fault → Prop} {results : List (Path × Except Fault Outcome)}
    (h : ∀ r ∈ results, Ends (fun _ => True) fault r.2) (js : List Job) :
    Ends (fun _ => True) fault (outcomes js results) := by
  have hfound : ∀ r ∈ js.filterMap fun j => results.lookup j.source,
      Ends (fun _ => True) fault r := by
    intro r hr
    obtain ⟨j, -, hlookup⟩ := List.mem_filterMap.1 hr
    obtain ⟨l₁, l₂, rfl, -⟩ := List.lookup_eq_some_iff.1 hlookup
    exact h (j.source, r) (List.mem_append_right _ List.mem_cons_self)
  exact (Ends.mapM hfound).mono (fun _ _ => trivial) fun _ hf => hf

section Outcomes

variable {order : List Job} (hperm : order.Perm js) (hsource : (js.map Job.source).Nodup)

include hperm hsource

theorem lookup_runJobs {r : Path × Except Fault Outcome}
    (hr : r ∈ (runJobs table output order t).2) :
    (runJobs table output order t).2.lookup r.1 = some r.2 := by
  refine lookup_of_mem ?_ hr
  rw [map_fst_runJobs]
  exact (hperm.map Job.source).nodup_iff.2 hsource

/-- The outcomes of a run are the reports of the jobs, whatever order these were done in. -/
theorem outcomes_runJobs (hwritten : allWritten table output order t = true) :
    outcomes js (runJobs table output order t).2 = js.mapM (Job.report table output) := by
  unfold outcomes
  have hlookup : ∀ j ∈ js, (runJobs table output order t).2.lookup j.source =
      (some ∘ Job.report table output) j := by
    intro j hj
    refine lookup_runJobs (r := (j.source, j.report table output)) hperm hsource ?_
    rw [runJobs_snd hwritten]
    exact List.mem_map_of_mem (hperm.mem_iff.2 hj)
  rw [List.filterMap_congr hlookup, List.filterMap_eq_map, List.mapM_map]
  rfl

/-- Every answer of a run is among those that its outcomes are read from. -/
theorem mem_answers {r : Path × Except Fault Outcome}
    (hr : r ∈ (runJobs table output order t).2) :
    r.2 ∈ js.filterMap fun j => (runJobs table output order t).2.lookup j.source := by
  have hmem : r.1 ∈ order.map Job.source := by
    rw [← map_fst_runJobs table output order t]
    exact List.mem_map_of_mem hr
  obtain ⟨j, hj, hjr⟩ := List.mem_map.1 hmem
  refine List.mem_filterMap.2 ⟨j, hperm.mem_iff.1 hj, ?_⟩
  rw [hjr]
  exact lookup_runJobs hperm hsource hr

/-- A run that has outcomes had no failing job. -/
theorem ok_of_outcomes {os : List Outcome}
    (h : outcomes js (runJobs table output order t).2 = .ok os) :
    ∀ r ∈ (runJobs table output order t).2, ∃ o, r.2 = .ok o := by
  intro r hr
  have hfound := mem_answers hperm hsource hr
  rw [outcomes, mapM_eq_ok_iff] at h
  generalize js.filterMap (fun j => (runJobs table output order t).2.lookup j.source) = l
    at h hfound
  induction h with
  | nil => cases hfound
  | cons hx _ ih =>
    rcases List.mem_cons.1 hfound with heq | hfound
    · exact ⟨_, heq.trans hx⟩
    · exact ih hfound

theorem allWritten_of_outcomes {os : List Outcome}
    (h : outcomes js (runJobs table output order t).2 = .ok os) :
    allWritten table output order t = true :=
  allWritten_of_ok (ok_of_outcomes hperm hsource h)

end Outcomes

/-! ## What is around the jobs -/

/-- The path that leads to the input folder is told from its names. -/
theorem place_of_checkInput {input : Path} {workers : Int}
    (h : t.checkInput input output workers = .ok ()) :
    t.place input = .ok input.place := by
  unfold checkInput at h
  split at h
  · cases h
  · split at h
    · cases h
    · rename_i hlook
      unfold look at hlook
      split at hlook
      · cases hlook
      · split at hlook
        · rename_i q hq
          rw [hq, place_eq hq]
        · cases hlook
        · cases hlook
    · cases h

/-- The trees that a run can leave: the one it found, the one after the jobs, and, in place and when
no job has failed, that without some of the superseded sources. -/
theorem remapIn_fst_cases (schedule : List Job → List Job) (table : Table) (input output : Path)
    (workers : Int) (t : FileTree) :
    (t.remapIn schedule table input output workers).1 = t ∨
    ∃ js, t.jobs input = .ok js ∧
      ((t.remapIn schedule table input output workers).1 =
          (runJobs table output (schedule js) t).1 ∨
        ∃ os, outcomes js (runJobs table output (schedule js) t).2 = .ok os ∧
          input.normal = output.normal ∧
          (t.remapIn schedule table input output workers).1 =
            (removeSuperseded (os.map fun o => o.destination.normal) os
              (runJobs table output (schedule js) t).1).1) := by
  unfold remapIn
  cases hcheck : t.checkInput input output workers with
  | error f => exact .inl rfl
  | ok u =>
    cases hread : t.jobs input with
    | error f => exact .inl rfl
    | ok js =>
      refine .inr ⟨js, rfl, ?_⟩
      simp only [bind, Except.bind]
      cases hout : outcomes js (runJobs table output (schedule js) t).2 with
      | error f => exact .inl rfl
      | ok os =>
        by_cases hsame : input.normal = output.normal
        · refine .inr ⟨os, rfl, hsame, ?_⟩
          simp only [if_pos hsame]
          split
          · rename_i h
            rw [h]
          · rename_i h
            rw [h]
        · exact .inl (by simp only [if_neg hsame])

end FileTree

end Renaming
