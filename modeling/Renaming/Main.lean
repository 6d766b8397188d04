import Renaming.CommandLine.Run
import Renaming.Yaml.Value

/-!
# `Main` — the program

The library works on a file tree that is a value. The program takes a picture of the files that a
request is about, carries the request out on the picture, and makes the disk look like the picture
afterwards: it writes the files that are new or other, and removes those that are gone. What a run
gets from outside is chosen here: documents are read by the reader in `Yaml`, texts are shown
without styles, no more than a thousand look-ups are made one inside the other, and the time is not
taken.
-/

set_option autoImplicit false

namespace Renaming

namespace Program

def systemPath (p : Place) : String := String.ofList ((Path.mk ['/'] p).text)

/-- The names in a folder, none if it is no folder. -/
def namesIn (folder : String) : IO (List String) := do
  try
    let f ← IO.FS.realPath folder
    if ← f.isDir then return ((← f.readDir).map fun e => e.fileName).toList else return []
  catch _ => return []

def isFolder (path : String) : IO Bool := do
  try return ← (← IO.FS.realPath path).isDir catch _ => return false

/-- Adds a file of the disk to a picture, if it can be read, or a folder. -/
def addFromDisk (t : FileTree) (p : Place) : IO FileTree := do
  if ← isFolder (systemPath p) then return t.addFolders [] p
  else
    try return t.addFile p (← IO.FS.readBinFile (systemPath p)).toList
    catch _ => return t.addFolders [] p.dropLast

/-- Adds a folder of the disk and all that is below it to a picture. -/
partial def addAllFromDisk (t : FileTree) (p : Place) : IO FileTree := do
  let names ← namesIn (systemPath p)
  names.foldlM (fun t n => addAllFromDisk t (p ++ [n.toList])) (← addFromDisk t p)

/-- The picture of the files that a request is about. -/
def picture (here : Path) (request : CommandLine.Request) : IO FileTree := do
  let place (t : Text) : Place := (here.join (Path.ofText t)).normal.names
  let start ← addFromDisk .empty here.normal.names
  match request with
  | .inspect mapping _ => mapping.mappings.foldlM (fun t m => addFromDisk t (place m)) start
  | .remap mapping _ input output _ => do
    let t ← mapping.mappings.foldlM (fun t m => addFromDisk t (place m)) start
    addAllFromDisk (← addAllFromDisk t (place input)) (place output)

/-- Makes the disk look like the picture afterwards. -/
def update (before after : FileTree) : IO Unit := do
  for (p, b) in after.files do
    if before.at? p ≠ some (.file b) then
      IO.FS.createDirAll (systemPath p.dropLast)
      IO.FS.writeBinFile (systemPath p) ⟨b.toArray⟩
  for (p, _) in before.files do
    if after.at? p = none then IO.FS.removeFile (systemPath p)

/-- The frames that a look-up can take. -/
def frames : Nat := 1000

/-- Carries out what arguments ask for on the disk. -/
def run (arguments : List Text) : IO UInt32 := do
  let here := Path.ofText (← IO.FS.realPath ".").toString.toList
  let before ← match CommandLine.readRequest arguments with
    | some request => picture here request
    | none => pure .empty
  let report := CommandLine.run ⟨frames, Yaml.load, .simple, 0⟩ here before arguments
  update before report.tree
  (← IO.getStdout).putStr (String.ofList report.output)
  (← IO.getStderr).putStr (String.ofList report.error)
  match report.code with
  | .ok n => return n.toUInt32
  | .error _ => return 1

end Program

end Renaming

/-- Runs the program with its arguments. -/
def main (arguments : List String) : IO UInt32 :=
  Renaming.Program.run (arguments.map String.toList)
