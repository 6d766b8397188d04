import Renaming.Document.Reading
import Renaming.Table.Basic

/-!
# `CommandLine/Console` — what a run gets from outside

Three things that a run depends on are not its own: how many frames the stack has, how the value of
a structured document is got from its text, and how the console shows what it is given. They make up
its `Runtime`. A run is the same whatever they are, and what is said of it is said for all of them,
or for those of which something is asked by name.

The console shows a text in which words in square brackets are tags, a text as it stands, and named
numbers in a table. It may refuse any of them: a tag can end a style that was never begun, and what
the output is written to need not have all characters.
-/

set_option autoImplicit false

namespace Renaming

namespace CommandLine

/-- How texts and tables are shown. -/
structure Console where
  /-- A text in which words in square brackets are tags. -/
  marked : Text → Except Fault Text
  /-- A text as it stands. -/
  plain : Text → Except Fault Text
  /-- Named numbers in a table. -/
  table : List (Text × Nat) → Except Fault Text

/-- What a run gets from outside. -/
structure Runtime where
  /-- The frames that a look-up can take. -/
  frames : Nat
  /-- How the documents of a run are read, by their numbers. -/
  readDocument : Nat → DocumentReader
  console : Console
  /-- The milliseconds that renaming takes. -/
  elapsed : Nat

/-- The numbers of symbols in a table with their names. -/
def counts (t : Table) : List (Text × Nat) :=
  [("packages".toList, t.packages.size), ("classes".toList, t.classes.size),
    ("fields".toList, t.fields.size), ("methods".toList, t.methods.size)]

def summary (cs : List (Text × Nat)) : Text :=
  Text.joinWith ' ' (cs.map fun c => c.1 ++ '=' :: Text.ofNat c.2)

/-- The console without styles, on which a tag is a text like any other. -/
def Console.simple : Console where
  marked t := .ok (t ++ ['\n'])
  plain t := .ok (t ++ ['\n'])
  table cs := .ok (cs.flatMap fun c => c.1 ++ ' ' :: Text.ofNat c.2 ++ ['\n'])

end CommandLine

end Renaming
