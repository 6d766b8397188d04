import Renaming.Mapping.Detection
import Renaming.Mapping.Depth
import Renaming.Document.Build
import Renaming.Document.Reading
import Renaming.Table.Depth

/-!
# `Mapping/Load` — from a text to its table

There is one reader per notation that consists of rows; the structured document makes a table of
its own and knows no tiers. A text is read in the notation that its file name or its content
shows, and its table is turned round when the opposite step is wanted.

A text in rows is read here from its first to its last character, while the value of a structured
document comes from outside, through the `DocumentReader` that every question about a text takes
along. Each question has two forms: one without a bound, about which mappings are compared, and one
that has a number of frames for its look-ups, which is the one that a program asks.
-/

set_option autoImplicit false

namespace Renaming

namespace Mapping

/-- The reader of a notation that consists of rows. The structured document is not read by rows and
makes its table in its own way. -/
def reader? : Format → Option (Text → Except Fault Mapping)
  | .yaml => none
  | .srg => some ofSrg
  | .csrg => some ofCsrg
  | .tsrg => some ofTsrg
  | .tsrg2 => some ofTsrg2
  | .tiny1 => some ofTiny1
  | .tiny2 => some ofTiny2
  | .proguard => some ofProGuard

end Mapping

/-- Which step a mapping is read for: its tiers, if they are asked for, and its direction. -/
structure Step where
  source : Option Text
  target : Option Text
  reverse : Bool
deriving DecidableEq, Repr

namespace Step

/-- The step from the first to the last tier. -/
def default : Step := ⟨none, none, false⟩

/-- The table in the direction of the step. -/
def direct (s : Step) (t : Table) : Table := if s.reverse then t.reverse else t

def directWithin (frames : Nat) (s : Step) (t : Table) : Except Fault Table :=
  if s.reverse then t.reverseWithin frames else .ok t

end Step

namespace Table

/-- The table of a text in a given notation. The tiers of the step are for rows alone, and its
direction is left to the caller. -/
def ofFormat (read : DocumentReader) (format : Format) (step : Step) (text : Text) :
    Except Fault Table :=
  match Mapping.reader? format with
  | none => do (← Document.ofText read text).table
  | some rows => do (← rows text).table step.source step.target

/-- The table of a text, which may have a file name: its notation is found, the text is read, the
tiers are chosen, and the table is turned round if the opposite step is wanted. -/
def ofText (read : DocumentReader) (filename : Option Text) (step : Step) (text : Text) :
    Except Fault Table := do
  let format ← Format.detect filename text
  return step.direct (← ofFormat read format step text)

/-- The table of a text in a notation. A document is never looked up in while its table is made. -/
def ofFormatWithin (frames : Nat) (read : DocumentReader) (format : Format) (step : Step)
    (text : Text) : Except Fault Table :=
  match Mapping.reader? format with
  | none => do (← Document.ofText read text).table
  | some rows => do (← rows text).tableWithin frames step.source step.target

/-- The table of a text, which may have a file name. -/
def ofTextWithin (frames : Nat) (read : DocumentReader) (filename : Option Text) (step : Step)
    (text : Text) : Except Fault Table := do
  let format ← Format.detect filename text
  step.directWithin frames (← ofFormatWithin frames read format step text)

end Table

end Renaming
