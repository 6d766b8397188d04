import Renaming.CommandLine.Sources
import Renaming.CommandLine.Console
import Renaming.FileTree.Depth

/-!
# `CommandLine/Run` — carrying out a request

A run goes through its phases and tells of each on the standard output; where it stops, the reason
goes to the standard error and the exit code is two. Options that do not fit and faults with a
sentence are explained in this way. The other faults end the run without an exit code, wherever they
come from: a value, a path, the console or the stack.

The two commands are written as `Work`, whose steps show something, change the files or end the run.
So what a run has shown and done when it ends needs no care at any step, and that a run ends well is
a matter of each step alone.
-/

set_option autoImplicit false

namespace Renaming

namespace CommandLine

/-- What a run has shown and done so far. -/
structure Progress where
  output : Text
  error : Text
  tree : FileTree

/-- How a run ends: with an exit code, or with a fault instead of one. -/
abbrev Ending := Except Fault Nat

/-- Steps of a run. Each of them may show something or change the files, and may end the run; what
was done before stays done. -/
abbrev Work := ExceptT Ending (StateM Progress)

/-- The exit code of a run that was stopped. -/
def stopped : Nat := 2

namespace Work

/-- Goes on with a value. A fault ends the run without an exit code. -/
def value {α : Type} : Except Fault α → Work α
  | .ok a => return a
  | .error f => throw (.error f)

def print (shown : Except Fault Text) : Work Unit := do
  let t ← value shown
  modify fun p => { p with output := p.output ++ t }

/-- Stops the run with a sentence on the standard error. -/
def stop {α : Type} (sentence : Text) : Work α := do
  modify fun p => { p with error := p.error ++ sentence ++ ['\n'] }
  throw (.ok stopped)

/-- Goes on with a value. A fault that can be explained stops the run; the label says what was going
on, and a fault of the options needs none. -/
def orStop {α : Type} (label : String) : Except Fault α → Work α
  | .ok a => return a
  | .error (.option o) => stop o.message
  | .error f =>
    if f.hasMessage then stop (label.toList ++ ": ".toList ++ f.message) else value (.error f)

end Work

/-- What a run leaves behind: what it wrote, the files, and how it ended. -/
structure Report where
  output : Text
  error : Text
  tree : FileTree
  code : Ending

/-- The report of work on a tree. Work that is done to its last step ends with zero. -/
def Work.report (w : Work Unit) (t : FileTree) : Report :=
  match w.run.run ⟨[], [], t⟩ with
  | (.ok (), p) => ⟨p.output, p.error, p.tree, .ok 0⟩
  | (.error code, p) => ⟨p.output, p.error, p.tree, code⟩

/-! ## Renaming -/

/-- The path that an option spells, from the root and without two dots. -/
def resolved (here : Path) (option : Text) : Except Fault Path :=
  let p := here.join (Path.ofText option)
  if p.hasNul then .error (.path .nulInName) else .ok p.normal

/-- A remapping that is ready to start. -/
structure Remapping where
  sources : List MappingSource
  input : Path
  output : Path

/-- Checks the options of a remapping in order: the mapping files, the paths, the input folder, and
the number of workers. Nothing is read before all of them fit. -/
def checkRemap (here : Path) (t : FileTree) (mapping : MappingOptions) (input output : Text)
    (workers : Int) : Except Fault Remapping := do
  let sources ← sources here t mapping
  let input ← resolved here input
  let output ← resolved here output
  match t.look input with
  | .error _ => throw (.path .nameTooLong)
  | .ok (some .folder) =>
    if workers ≤ 0 then throw (.option .noWorkers) else return ⟨sources, input, output⟩
  | .ok _ => throw (.option (.inputNotFolder input.text))

def outcomeCounts (os : List FileTree.Outcome) (elapsed : Nat) : List (Text × Nat) :=
  let count (s : FileTree.Status) : Nat := os.countP fun o => o.status = s
  [("smali_files_discovered".toList, os.length), ("smali_files_changed".toList, count .changed),
    ("smali_files_unchanged".toList, count .unchanged),
    ("smali_files_unmodified".toList, count .unmodified),
    ("symbols_renamed".toList, os.foldl (fun n o => n + o.renamed) 0),
    ("elapsed_ms".toList, elapsed)]

variable (rt : Runtime)

/-- Shows a line that has no tags of its own. -/
def showLine (line : Text) : Work Unit := .print (rt.console.marked line)

/-- Renames the assembly files below a folder of the tree. -/
def renameFiles (t : FileTree) (table : Table) (r : Remapping) (workers : Int) :
    Work (List FileTree.Outcome) := do
  let (renamed, result) := t.remapWithin rt.frames id table r.input r.output workers
  modify fun p => { p with tree := renamed }
  .orStop "Remap failed" result

/-- Renames the assembly files of a folder, and tells of every phase as it begins and ends. -/
def remap (here : Path) (t : FileTree) (mapping : MappingOptions) (excluded : List Text)
    (input output : Text) (workers : Int) : Work Unit := do
  showLine rt "validation:start".toList
  let r ← .orStop "Validation failed" (checkRemap here t mapping input output workers)
  showLine rt "validation:done".toList
  showLine rt "load:start".toList
  let table ← .orStop "Loading mappings failed"
    (MappingSource.loadChain rt.frames rt.readDocument here t r.sources)
  let table := excluded.foldl Table.exclude table
  showLine rt "load:done".toList
  showLine rt (summary (counts table))
  showLine rt "remap:start".toList
  let os ← renameFiles rt t table r workers
  showLine rt "remap:done".toList
  showLine rt (summary (outcomeCounts os rt.elapsed))
  showLine rt "status=success".toList

/-! ## Showing a table -/

def namesLine (name target : Text) : Text := "class=".toList ++ name ++ " target=".toList ++ target

/-- Shows what becomes of a class, and the comment that somebody left on it. -/
def inspectClass (table : Table) (name : Text) : Work Unit := do
  let comment := Table.commentOf (table.findClassEntry? name)
  showLine rt (namesLine name (← .value (table.mapClassWithin rt.frames name)))
  if comment.isPresent then
    .print (rt.console.plain ("comment=".toList ++ (← .value comment.inWriting)))

/-- Shows the size of a table and, if one is named, what becomes of a class. -/
def inspect (here : Path) (t : FileTree) (mapping : MappingOptions) (className : Option Text) :
    Work Unit := do
  let table ← .orStop "Loading mappings failed"
    (sources here t mapping >>= MappingSource.loadChain rt.frames rt.readDocument here t)
  .print (rt.console.table (counts table))
  match className.bind Text.nonempty? with
  | none => return ()
  | some name => inspectClass rt table (Descriptor.internalName name)

/-! ## Requests -/

/-- The work that a request asks for, seen from the folder `here`. -/
def Request.work (here : Path) (t : FileTree) : Request → Work Unit
  | .remap mapping excluded input output workers =>
    CommandLine.remap rt here t mapping excluded input output workers
  | .inspect mapping className => CommandLine.inspect rt here t mapping className

/-- Carries out what arguments ask for. Arguments that are refused stop the run at once. -/
def run (here : Path) (t : FileTree) (arguments : List Text) : Report :=
  match readRequest arguments with
  | none => ⟨[], [], t, .ok stopped⟩
  | some request => (request.work rt here t).report t

end CommandLine

end Renaming
