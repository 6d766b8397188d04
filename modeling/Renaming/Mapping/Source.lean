import Renaming.Mapping.Load
import Renaming.FileTree.Basic
import Renaming.Text.Utf8

/-!
# `Mapping/Source` — mapping files

A mapping file is read as UTF-8 text, with a line feed at the end of every line however it was
written, and in the notation that its name or its content shows. Several files in a row are a chain
of steps; they are all read before the steps are put together.
-/

set_option autoImplicit false

namespace Renaming

/-- A mapping file and the step that it is read for. -/
structure MappingSource where
  path : Path
  step : Step
deriving DecidableEq, Repr

namespace MappingSource

/-- The text of a mapping file, for a path seen from the folder `here`. -/
def readText (here : Path) (t : FileTree) (path : Path) : Except Fault Text :=
  if path.hasNul then .error (.path .nulInName)
  else
    match t.read (here.join path) with
    | .error _ => .error (.file (.unreadableMapping path.text))
    | .ok bytes =>
      match Text.ofUtf8? bytes with
      | some text => .ok (Text.unifyBreaks text)
      | none => .error (.file (.unreadableMapping path.text))

/-- The table of a mapping file. That a file cannot be read is told apart from what is wrong in
it. -/
def load (frames : Nat) (read : DocumentReader) (here : Path) (t : FileTree) (s : MappingSource) :
    Except Fault Table := do
  Table.ofTextWithin frames read (some s.path.name) s.step (← readText here t s.path)

/-- The table of a chain of mapping files. Values of different documents are told apart, so each
file has a reader of its own, by its number. -/
def loadChain (frames : Nat) (readDocument : Nat → DocumentReader) (here : Path) (t : FileTree)
    (ss : List MappingSource) : Except Fault Table := do
  Table.chainWithin frames (← ss.zipIdx.mapM fun s => load frames (readDocument s.2) here t s.1)

end MappingSource

end Renaming
