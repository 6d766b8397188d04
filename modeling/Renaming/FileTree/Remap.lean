import Renaming.FileTree.Replace
import Renaming.Assembly.Renamed
import Renaming.Text.Utf8

/-!
# `FileTree/Remap` — renaming a whole folder of assembly files

Every assembly file below the input folder is read before any file is written, because in place one
file's new name may be another file's old one. Then there is one job per file, in whatever order:
its text is renamed and written under the new name of its class. A file that declares no class, or
is no text, is copied. In place, the files that no job has written are removed at last, unless a
job has failed.
-/

set_option autoImplicit false

namespace Renaming

namespace FileTree

def assemblySuffix : Text := ".smali".toList

/-- What became of a file. -/
inductive Status where
  /-- Its text or its place is another. -/
  | changed
  | unchanged
  /-- It was copied without being read as assembly text. -/
  | unmodified
deriving DecidableEq, Repr

/-- What became of a file, where it was and where it is. -/
structure Outcome where
  source : Path
  destination : Path
  status : Status
  /-- The number of names that were changed in it. -/
  renamed : Nat
deriving DecidableEq, Repr

/-- The work on a file: its path, its names below the input folder, and what it holds. -/
structure Job where
  source : Path
  names : List Text
  content : Bytes
deriving DecidableEq, Repr

/-- What a job writes: where, what, and how it is reported if that can be written. -/
structure Product where
  destination : Path
  content : Bytes
  status : Except Fault Status
  renamed : Nat

namespace Job

/-- The copy of a file at its place below the output folder. -/
def copy (output : Path) (j : Job) : Product :=
  ⟨⟨output.root, output.names ++ j.names⟩, j.content, .ok .unmodified, 0⟩

/-- How a renamed file is reported. Its path has to be spelt as one below the output folder. -/
def status (output destination : Path) (j : Job) (sameText : Bool) : Except Fault Status :=
  match output.below? destination with
  | none => .error (.path .outsideOutput)
  | some names => .ok (if names ≠ j.names ∨ sameText = false then .changed else .unchanged)

/-- The path of the file of a class. Like any path that is joined to another, a name that begins
with a slash is a path of its own. -/
def destination (output : Path) (className : Text) : Path :=
  output.join (Path.ofText (className ++ assemblySuffix))

/-- What a job writes. A file that is no text or declares no class is copied to its own place below
the output folder. Any other goes where the new name of its class leads from there, and nothing is
asked of this name. -/
def product (table : Table) (output : Path) (j : Job) : Product :=
  match Text.ofUtf8? j.content with
  | none => j.copy output
  | some text =>
    let r := Assembly.rename table text
    match r.newName with
    | none => j.copy output
    | some name =>
      let path := destination output name
      ⟨path, Text.utf8 r.text, j.status output path (r.text == text), r.renamed⟩

/-- Does a job: writes what it has to, and reports it. By the time a report fails the file is
written. -/
def run (table : Table) (output : Path) (t : FileTree) (j : Job) : FileTree × Except Fault Outcome :=
  let p := j.product table output
  match t.replace p.destination p.content with
  | (t, .error f) => (t, .error f)
  | (t, .ok ()) => (t, p.status.map fun s => ⟨j.source, p.destination, s, p.renamed⟩)

end Job

/-- Does jobs one after the other, also those behind one that fails, and answers for each source
what became of it. -/
def runJobs (table : Table) (output : Path) :
    List Job → FileTree → FileTree × List (Path × Except Fault Outcome)
  | [], t => (t, [])
  | j :: js, t =>
    let (t, r) := j.run table output t
    let (t, rs) := runJobs table output js t
    (t, (j.source, r) :: rs)

/-- The outcomes of jobs in the order of the jobs, or the fault of the first job that has one,
however the results are ordered. -/
def outcomes (jobs : List Job) (results : List (Path × Except Fault Outcome)) :
    Except Fault (List Outcome) := (jobs.filterMap fun j => results.lookup j.source).mapM id

/-- The job for the file with these names below the input folder, which is read for it. -/
def jobFor (t : FileTree) (input : Path) (names : List Text) : Except Fault Job :=
  let source : Path := ⟨input.root, input.names ++ names⟩
  match t.read source with
  | .ok b => .ok ⟨source, names, b⟩
  | .error _ => .error (.file (.unreadable source.text))

/-- The jobs for the files below the input folder, in the order of their paths. -/
def jobs (t : FileTree) (input : Path) : Except Fault (List Job) :=
  (t.find input assemblySuffix).mapM (t.jobFor input)

/-- Removes the sources that no outcome has as its destination. -/
def removeSuperseded (written : List Path) : List Outcome → FileTree → FileTree × Except Fault Unit
  | [], t => (t, .ok ())
  | o :: os, t =>
    let source := o.source.normal
    if source ∈ written then removeSuperseded written os t
    else
      match t.remove source with
      | .ok t => removeSuperseded written os t
      | .error _ => (t, .error (.file (.unremovable source.text)))

/-- Whether the input folder can be gone through. -/
def checkInput (t : FileTree) (input output : Path) (workers : Int) : Except Fault Unit :=
  if workers ≤ 0 then .error .tooFewWorkers
  else
    match t.look input with
    | .error e => .error (.path e.path)
    | .ok (some .folder) => if output.hasNul then .error (.path .nulInName) else .ok ()
    | .ok _ => .error (.file (.inputNotFolder input.text))

/-- Renames the assembly files below the input folder into the output folder, with the jobs in the
order of a schedule. Answers the tree afterwards and the outcomes in the order of the paths. -/
def remapIn (schedule : List Job → List Job) (table : Table) (input output : Path) (workers : Int)
    (t : FileTree) : FileTree × Except Fault (List Outcome) :=
  match t.checkInput input output workers >>= fun _ => t.jobs input with
  | .error f => (t, .error f)
  | .ok js =>
    let (t, results) := runJobs table output (schedule js) t
    match outcomes js results with
    | .error f => (t, .error f)
    | .ok os =>
      if input.normal = output.normal then
        match removeSuperseded (os.map fun o => o.destination.normal) os t with
        | (t, .ok ()) => (t, .ok os)
        | (t, .error f) => (t, .error f)
      else (t, .ok os)

/-- Renames the assembly files below the input folder into the output folder. -/
def remap (table : Table) (input output : Path) (workers : Int) (t : FileTree) :
    FileTree × Except Fault (List Outcome) := remapIn id table input output workers t

end FileTree

end Renaming
