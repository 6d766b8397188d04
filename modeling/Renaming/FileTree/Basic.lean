import Renaming.FileTree.Path
import Renaming.OrderedMap

/-!
# `FileTree/Basic` — files and folders

A file tree holds files and folders under their places, the lists of names from the root down.
There are no links, so every file has one place. A path is followed name by name, and each folder
on the way has to be there, two dots or not; what is wrong with a path is the first thing that
is wrong on the way.

An operation gives the tree afterwards, or the reason why it did nothing.
-/

set_option autoImplicit false

namespace Renaming

abbrev Bytes := List UInt8

/-- The place of a file or folder: the names from the root down. -/
abbrev Place := List Text

/-- What can be at a place. -/
inductive Node where
  | file (content : Bytes)
  | folder
deriving DecidableEq, Repr

/-- Why an operation on files is refused. -/
inductive DiskFault where
  | missing
  /-- A part of the path that should be a folder is a file. -/
  | throughFile
  | isFolder
  /-- Something is there already. -/
  | taken
  | nameTooLong
deriving DecidableEq, Repr

/-- Files and folders by their places. The root is always there. -/
structure FileTree where
  nodes : OrderedMap Place Node

namespace FileTree

def empty : FileTree := ⟨.empty⟩

instance : Inhabited FileTree := ⟨empty⟩

def at? (t : FileTree) (p : Place) : Option Node := if p = [] then some .folder else t.nodes.get? p

def set (t : FileTree) (p : Place) (n : Node) : FileTree := ⟨t.nodes.insert p n⟩

def erase (t : FileTree) (p : Place) : FileTree := ⟨t.nodes.erase p⟩

def maxNameBytes : Nat := 255

def maxPathBytes : Nat := 4095

/-- Follows names from a place on. The last of them need not be there. -/
def follow (t : FileTree) (p : Place) : List Text → Except DiskFault Place
  | [] => .ok p
  | n :: ns =>
    match t.at? p with
    | none => .error .missing
    | some (.file _) => .error .throughFile
    | some .folder =>
      if n = Path.up then follow t p.dropLast ns
      else if maxNameBytes < Path.byteLength n then .error .nameTooLong
      else follow t (p ++ [n]) ns

/-- The place that a path leads to. Paths here start at the root. -/
def place (t : FileTree) (p : Path) : Except DiskFault Place :=
  if maxPathBytes < Path.byteLength p.text then .error .nameTooLong else t.follow [] p.names

/-- What a path leads to, nothing if it leads nowhere. A name that is too long is a fault. -/
def look (t : FileTree) (p : Path) : Except DiskFault (Option Node) :=
  if p.hasNul then .ok none
  else
    match t.place p with
    | .ok q => .ok (t.at? q)
    | .error .nameTooLong => .error .nameTooLong
    | .error _ => .ok none

def isFolder (t : FileTree) (p : Path) : Bool :=
  match t.look p with
  | .ok (some .folder) => true
  | _ => false

/-! ## Operations -/

/-- The content of the file that a path leads to. -/
def read (t : FileTree) (p : Path) : Except DiskFault Bytes := do
  match t.at? (← t.place p) with
  | none => throw .missing
  | some .folder => throw .isFolder
  | some (.file b) => return b

def write (t : FileTree) (p : Path) (b : Bytes) : Except DiskFault FileTree := do
  let q ← t.place p
  match t.at? q with
  | some .folder => throw .isFolder
  | _ => return t.set q (.file b)

def makeFolder (t : FileTree) (p : Path) : Except DiskFault FileTree := do
  let q ← t.place p
  match t.at? q with
  | some _ => throw .taken
  | none => return t.set q .folder

def remove (t : FileTree) (p : Path) : Except DiskFault FileTree := do
  let q ← t.place p
  match t.at? q with
  | none => throw .missing
  | some .folder => throw .isFolder
  | some (.file _) => return t.erase q

/-- Puts a file in the place of another, which it replaces. -/
def move (t : FileTree) (source target : Path) : Except DiskFault FileTree := do
  let p ← t.place source
  let q ← t.place target
  match t.at? p, t.at? q with
  | none, _ => throw .missing
  | some .folder, _ | _, some .folder => throw .isFolder
  | some (.file b), _ => return (t.erase p).set q (.file b)

/-! ## Listing -/

/-- The places below a place at which there is something, as names from there on. -/
def below (t : FileTree) (p : Place) : List (List Text) :=
  t.nodes.keys.filterMap fun q =>
    match Path.namesBehind p q with
    | some (r :: rs) => some (r :: rs)
    | _ => none

/-- The files and folders below a path whose names end with a suffix, as names from there on and in
the order of these. -/
def find (t : FileTree) (p : Path) (suffix : Text) : List (List Text) :=
  match t.place p with
  | .error _ => []
  | .ok q =>
    ((t.below q).filter fun ns => Text.endsWith suffix (ns.getLast?.getD [])).mergeSort
      Path.namesLe

/-- All files with their places, in the order in which they came to be. -/
def files (t : FileTree) : List (Place × Bytes) :=
  t.nodes.toList.filterMap fun (p, n) =>
    match n with
    | .file b => some (p, b)
    | .folder => none

/-- Adds the folders that names from a place on lead through, where nothing is yet. -/
def addFolders (t : FileTree) (p : Place) : List Text → FileTree
  | [] => t
  | n :: ns =>
    let q := p ++ [n]
    addFolders (if (t.at? q).isSome then t else t.set q .folder) q ns

def addFile (t : FileTree) (p : Place) (b : Bytes) : FileTree :=
  (t.addFolders [] p.dropLast).set p (.file b)

end FileTree

end Renaming
