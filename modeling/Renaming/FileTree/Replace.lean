import Renaming.FileTree.Basic
import Renaming.Fault

/-!
# `FileTree/Replace` — writing a file so that no half of it is ever seen

The folders around a file are made, its content is written beside it under a temporary name, and
the temporary file takes its place. Whatever goes wrong, the temporary file is removed, and that
may go wrong too: a path that leads through a file is no more open to removing than to writing. The
tree that is left is answered in either case.
-/

set_option autoImplicit false

namespace Renaming

/-- The fault of a path that cannot even be cleaned up. -/
def DiskFault.path : DiskFault → PathFault
  | missing | throughFile => .throughFile
  | isFolder | taken => .folderInPlace
  | nameTooLong => .nameTooLong

namespace FileTree

/-- Makes a folder if it is not there yet. -/
def ensureFolder (t : FileTree) (p : Path) : FileTree × Except DiskFault Unit :=
  match t.makeFolder p with
  | .ok t' => (t', .ok ())
  | .error e => if t.isFolder p then (t, .ok ()) else (t, .error e)

/-- Makes a folder and, where they are missing, those around it. The names come last first. -/
def makeFolders (root : Text) : List Text → FileTree → FileTree × Except DiskFault Unit
  | [], t => (t, .ok ())
  | n :: ns, t =>
    let p : Path := ⟨root, (n :: ns).reverse⟩
    match t.ensureFolder p with
    | (_, .error .missing) =>
      match makeFolders root ns t with
      | (t', .ok ()) => t'.ensureFolder p
      | r => r
    | r => r

def temporarySuffix : Text := ".tmp".toList

def temporary (p : Path) : Path := p.extend temporarySuffix

/-- Removes the temporary file of a write that failed, and says what failed: the write, or even
the removing. -/
def abandon (t : FileTree) (p : Path) : FileTree × Except Fault Unit :=
  match t.remove (temporary p) with
  | .ok t' => (t', .error (.file (.unwritable p.text)))
  | .error .missing => (t, .error (.file (.unwritable p.text)))
  | .error e => (t, .error (.path e.path))

/-- Replaces the content of a file, which need not be there yet: its folders are made, the content
is written beside it, and the new file is moved into its place. When a step fails, the temporary
file is removed. -/
def replace (t : FileTree) (p : Path) (b : Bytes) : FileTree × Except Fault Unit :=
  if p.parent.hasNul then (t, .error (.path .nulInName))
  else
    match makeFolders p.root p.names.dropLast.reverse t with
    | (t, .error _) => t.abandon p
    | (t, .ok ()) =>
      if p.hasNul then (t, .error (.path .nulInName))
      else
        match t.write (temporary p) b with
        | .error _ => t.abandon p
        | .ok t =>
          match t.move (temporary p) p with
          | .error _ => t.abandon p
          | .ok t => (t, .ok ())

end FileTree

end Renaming
