import Renaming.Proofs.FileTree.Completed

/-!
# `Proofs/FileTree/Failed` — what is left of a file when a run fails

All files are read before the first is written, and none is removed before the last one is, so a
file whose place and whose destination no other file takes is never lost: its bytes are where they
were, or what was made of them is where it should go, and this holds after every run, however it
ended (`kept_or_written`).

The condition cannot be left out. In place the destination of one file may be the source of another,
and this other one is overwritten before its own write is tried; what was in it was only in memory
then, and is gone when that write fails (`lost_lostFolder`).
-/

set_option autoImplicit false

namespace Renaming

namespace FileTree

variable {schedule : List Job → List Job} {table : Table} {input output : Path} {workers : Int}
  {t : FileTree} {js : List Job}

/-- A file whose place and destination no other job writes to keeps its bytes where they were, or
what was made of them is at its destination, however the run ends. -/
theorem kept_or_written (ht : t.Proper) (hread : t.jobs input = .ok js)
    (hschedule : (schedule js).Perm js) {j : Job} (hj : j ∈ js)
    (halone : ∀ k ∈ js, k ≠ j →
      (k.product table output).destination.place ≠ j.source.place ∧
      (k.product table output).destination.place ≠ (j.product table output).destination.place) :
    (t.remapIn schedule table input output workers).1.content? j.source.place = some j.content ∨
    (t.remapIn schedule table input output workers).1.content?
      (j.product table output).destination.place = some (newContent table j.content) := by
  have hfrom := from_of_jobs ht hread
  have hassembly := allAssembly_of_from table output hfrom
  have horder := allAssembly_order hschedule hassembly
  have hsource := nodup_sources_jobs ht hread
  have hown : ∀ k ∈ schedule js,
      (k.product table output).destination.place = (j.product table output).destination.place →
      newContent table k.content = newContent table j.content := by
    intro k hk hplace
    by_cases hkj : k = j
    · rw [hkj]
    · exact absurd hplace (halone k (hschedule.mem_iff.1 hk) hkj).2
  -- After the jobs only the job of the file itself can have changed what is at its place.
  have hjobs : (runJobs table output (schedule js) t).1.content? j.source.place = some j.content ∨
      (runJobs table output (schedule js) t).1.content?
        (j.product table output).destination.place = some (newContent table j.content) := by
    obtain hsame | ⟨k, hk, hplace, hnew⟩ := content?_runJobs (hfrom j hj).isAssembly horder t
    · exact .inl (hsame.trans (hfrom j hj).content)
    · by_cases hkj : k = j
      · subst hkj
        exact .inr (hplace ▸ hnew)
      · exact absurd hplace (halone k (hschedule.mem_iff.1 hk) hkj).1
  obtain hnothing | ⟨js', hread', hcases⟩ :=
    remapIn_fst_cases schedule table input output workers t
  · rw [hnothing]
    exact .inl (hfrom j hj).content
  · rw [hread] at hread'
    cases hread'
    obtain hrun | ⟨os, houtcomes, -, hremoved⟩ := hcases
    · rw [hrun]
      exact hjobs
    · -- No job has failed, so the destination is written, and it is not among what is removed.
      have hwritten := allWritten_of_outcomes hschedule hsource houtcomes
      have hdestination := content?_runJobs_of_allWritten (hassembly j hj) horder hwritten
        (.inl ⟨j, hschedule.mem_iff.2 hj, rfl⟩) hown
      rw [outcomes_runJobs hschedule hsource hwritten] at houtcomes
      obtain ⟨o, ho, hjo⟩ := exists_mapM_of_mem houtcomes hj
      have hkept := (keptBut_removeSuperseded (os.map fun o => o.destination.normal) os
        (runJobs table output (schedule js) t).1).content _ (destination_notMem_superseded ho)
      rw [(Job.report_eq_ok hjo).2.1] at hkept
      rw [hremoved, hkept]
      exact .inr hdestination

/-! ## A file that is lost -/

/-- The first file is to go where the second is, and the second where no file can go. -/
def lostFolder : FileTree :=
  folderOf "in" [("a.smali", ".class La;\n# from a\n"), ("b.smali", ".class Lb;\n.field kept:I\n"),
    ("f", "plain file\n")]

/-- A class that takes the name of another, which is to be in a package named like a file. -/
def lostTable : Table :=
  (Table.empty.addClass "a".toList "b".toList .null).addClass "b".toList "f/z".toList .null

def takingJob : Job :=
  ⟨⟨['/'], ["in".toList, "a.smali".toList]⟩, ["a.smali".toList],
    Text.utf8 ".class La;\n# from a\n".toList⟩

def lostJob : Job :=
  ⟨⟨['/'], ["in".toList, "b.smali".toList]⟩, ["b.smali".toList],
    Text.utf8 ".class Lb;\n.field kept:I\n".toList⟩

theorem jobs_lostFolder : lostFolder.jobs (inRoot "in") = .ok [takingJob, lostJob] := by
  have hfound : lostFolder.find (inRoot "in") assemblySuffix =
      [["a.smali".toList], ["b.smali".toList]] :=
    find_of_pairwise rfl (by decide +kernel) (by decide +kernel)
  rw [jobs, hfound]
  decide +kernel

theorem remap_lostFolder :
    lostFolder.remap lostTable (inRoot "in") (inRoot "in") 1 =
      ((runJobs lostTable (inRoot "in") [takingJob, lostJob] lostFolder).1,
        .error (.path .throughFile)) := by
  have hcheck : lostFolder.checkInput (inRoot "in") (inRoot "in") 1 = .ok () := rfl
  have houtcomes : outcomes [takingJob, lostJob]
      (runJobs lostTable (inRoot "in") [takingJob, lostJob] lostFolder).2 =
        .error (.path .throughFile) := by decide +kernel
  simp only [remap, remapIn, hcheck, jobs_lostFolder, bind, Except.bind, id, houtcomes]

/-- The first of the two files is at its destination when the run has failed. -/
theorem kept_or_written_takingJob :
    (lostFolder.remapIn id lostTable (inRoot "in") (inRoot "in") 1).1.content?
        takingJob.source.place = some takingJob.content ∨
    (lostFolder.remapIn id lostTable (inRoot "in") (inRoot "in") 1).1.content?
        (takingJob.product lostTable (inRoot "in")).destination.place =
      some (newContent lostTable takingJob.content) := by
  have hproper : lostFolder.Proper := by
    unfold Proper
    decide +kernel
  have halone : ∀ k ∈ [takingJob, lostJob], k ≠ takingJob →
      (k.product lostTable (inRoot "in")).destination.place ≠ takingJob.source.place ∧
      (k.product lostTable (inRoot "in")).destination.place ≠
        (takingJob.product lostTable (inRoot "in")).destination.place := by
    decide +kernel
  exact kept_or_written hproper jobs_lostFolder (List.Perm.refl _) List.mem_cons_self halone

/-- The second file is neither where it was nor where it should go when the run has failed. -/
theorem lost_lostFolder :
    ∃ f js, (lostFolder.remap lostTable (inRoot "in") (inRoot "in") 1).2 = .error f ∧
      lostFolder.jobs (inRoot "in") = .ok js ∧
      ∃ j ∈ js,
        (lostFolder.remap lostTable (inRoot "in") (inRoot "in") 1).1.content? j.source.place ≠
          some j.content ∧
        (lostFolder.remap lostTable (inRoot "in") (inRoot "in") 1).1.content?
            (j.product lostTable (inRoot "in")).destination.place ≠
          some (newContent lostTable j.content) := by
  rw [remap_lostFolder]
  refine ⟨.path .throughFile, [takingJob, lostJob], rfl, jobs_lostFolder, lostJob, by simp, ?_, ?_⟩
  · decide +kernel
  · decide +kernel

end FileTree

end Renaming
