import Renaming.Assembly.Depth
import Renaming.FileTree.Remap

/-!
# `FileTree/Depth` — renaming a whole folder in a number of frames

A job renames its text before it writes anything. If the stack is too small for that, the job fails
and leaves the tree as it is, and the other jobs are done nonetheless, as they are when a write
fails; the run is then answered by one of the jobs that failed. If the stack is deep enough for all
jobs, the run is that of `FileTree/Remap`.
-/

set_option autoImplicit false

namespace Renaming

namespace FileTree

/-- The depth of a job. A file that is no text is copied without being looked into. -/
def Job.depth (table : Table) (j : Job) : Nat :=
  match Text.ofUtf8? j.content with
  | none => 0
  | some text => Assembly.depth table text

/-- Whether a number of frames is enough for the look-ups of a job. -/
def Job.fits (frames : Nat) (table : Table) (j : Job) : Bool := j.depth table ≤ frames

/-- The answers of jobs for which the stack is too small. -/
def stuck (js : List Job) : List (Path × Except Fault Outcome) :=
  js.map fun j => (j.source, .error .stackFull)

/-- Renames the assembly files below the input folder into the output folder, with the jobs in the
order of a schedule. -/
def remapWithin (frames : Nat) (schedule : List Job → List Job) (table : Table)
    (input output : Path) (workers : Int) (t : FileTree) :
    FileTree × Except Fault (List Outcome) :=
  match t.checkInput input output workers >>= fun _ => t.jobs input with
  | .error f => (t, .error f)
  | .ok js =>
    match (schedule js).filter fun j => !j.fits frames table with
    | [] => t.remapIn schedule table input output workers
    | others =>
      let (t, results) := runJobs table output ((schedule js).filter (Job.fits frames table)) t
      (t, outcomes js (results ++ stuck others))

end FileTree

end Renaming
