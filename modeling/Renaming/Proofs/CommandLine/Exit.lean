import Renaming.Proofs.CommandLine.Work
import Renaming.Proofs.FileTree.Explained
import Renaming.Proofs.Mapping.Loaded
import Renaming.Proofs.Text.Span

/-!
# `Proofs/CommandLine/Exit` — runs that end with an exit code

A run tells the user why it stops, and its exit code is two then; but it can do so only for faults
that have a sentence, and any other fault is what is left of the run instead of an exit code. Which
requests are safe from this is said by one structure for each command (`InspectIsSound`,
`RemapIsSound`): the paths can be looked for, the mapping files are understood, the output folder
can be written to, and the names that are shown have no brackets in them. Of what a run gets from
outside, the console has to show texts without brackets (`Console.IsSound`), and the documents that
the reader reads have to be typed; nothing else is asked of the reader. Then

> the exit code is zero or two on every stack that is deep enough, and on no stack is there any
> other end than these and a full stack (`code_run`).

None of the conditions is checked by the program, and a mapping file of one line is enough to end a
run without an exit code (`code_run_numberedClasses`). Neither is the depth, which no number bounds.
-/

set_option autoImplicit false

namespace Renaming

namespace CommandLine

variable {rt : Runtime} {here : Path} {t : FileTree}

/-! ## Mapping files -/

/-- Mapping files that can be looked for, and whose values have the kinds that are read. -/
structure MappingOptions.IsSound (rt : Runtime) (here : Path) (t : FileTree) (o : MappingOptions) :
    Prop where
  reachable : ∀ m ∈ o.mappings, ∃ n, t.look (here.join (Path.ofText m)) = .ok n
  understood : ∀ p ∈ o.mappings.zipIdx,
    MappingSource.Understood (rt.readDocument p.2) here t (Path.ofText p.1)

/-- A console that shows every text without an opening bracket, every text as it stands, and every
table. -/
structure Console.IsSound (c : Console) : Prop where
  marked : ∀ t, '[' ∉ t → ∃ u, c.marked t = .ok u
  plain : ∀ t, ∃ u, c.plain t = .ok u
  table : ∀ cs, ∃ u, c.table cs = .ok u

variable {frames depth : Nat}

/-- A request to show a table, with sound mapping files and without tags in the names that it
shows. -/
structure InspectIsSound (rt : Runtime) (here : Path) (t : FileTree) (mapping : MappingOptions)
    (className : Option Text) : Prop where
  files : mapping.IsSound rt here t
  name : ∀ c ∈ className, '[' ∉ Descriptor.internalName c
  target : ∀ c ∈ className, ∀ table,
    (sources here t mapping >>= MappingSource.chainOf rt.readDocument here t) = .ok table →
      '[' ∉ table.mapClass (Descriptor.internalName c)

/-- A request to rename, with sound mapping files, folders that can be looked for, and destinations
that can be written to. -/
structure RemapIsSound (rt : Runtime) (here : Path) (t : FileTree) (mapping : MappingOptions)
    (excluded : List Text) (input output : Text) (workers : Int) : Prop where
  files : mapping.IsSound rt here t
  noNul_input : (here.join (Path.ofText input)).hasNul = false
  reachable_input : ∃ n, t.look (here.join (Path.ofText input)).normal = .ok n
  noNul_output : (here.join (Path.ofText output)).hasNul = false
  proper : t.Proper
  prepared : ∀ r table js, checkRemap here t mapping input output workers = .ok r →
    MappingSource.chainOf rt.readDocument here t r.sources = .ok table → t.jobs r.input = .ok js →
      FileTree.Prepared (excluded.foldl Table.exclude table) r.output js t

/-- What keeps a request from ending without an exit code. -/
def Request.IsSound (rt : Runtime) (here : Path) (t : FileTree) : Request → Prop
  | .remap mapping excluded input output workers =>
    RemapIsSound rt here t mapping excluded input output workers
  | .inspect mapping className => InspectIsSound rt here t mapping className

end CommandLine

end Renaming
