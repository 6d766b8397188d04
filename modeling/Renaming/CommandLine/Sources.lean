import Renaming.CommandLine.Arguments
import Renaming.Mapping.Source

/-!
# `CommandLine/Sources` — options that belong to mapping files

Pairs of namespaces are listed in the order of the mapping files, and the files to be reversed by
their numbers, counted from zero. A list may leave out what is not wanted, but it must not go
beyond the files: neither by more pairs nor by a number that no file has.
-/

set_option autoImplicit false

namespace Renaming

namespace CommandLine

/-- The pairs of namespaces in an option, none for an empty one. -/
def namespacePairs (option : Text) : List Text :=
  if option = [] then [] else (Text.splitOn ',' option).map Text.trim

/-- The numbers in an option, none if one of its items is no number. Blank items are passed over. -/
def reverseIndexes? (option : Text) : Option (List Int) :=
  ((Text.splitOn ',' option).filter fun i => !Text.isBlankText i).mapM Text.readInt

/-- The numbers that no file of a list of this length has, ascending and each once. -/
def outOfRange (length : Nat) (indexes : List Int) : List Int :=
  ((indexes.filter fun i : Int => i < 0 ∨ (length : Int) ≤ i).eraseDups).mergeSort fun a b => a ≤ b

/-- The namespaces of a pair, which has a colon between them. A blank pair asks for none. -/
def namespacesOf (pair : Text) : Except Fault (Option Text × Option Text) :=
  if pair = [] then .ok (none, none)
  else
    match Text.cut ':' pair with
    | some (source, target) => .ok (source.nonempty?, target.nonempty?)
    | none => .error (.option (.pairWithoutColon pair))

/-- The path of a mapping file, which has to be there. -/
def existingFile (here : Path) (t : FileTree) (mapping : Text) : Except Fault Path :=
  let path := Path.ofText mapping
  match t.look (here.join path) with
  | .error _ => .error (.path .nameTooLong)
  | .ok (some (.file _)) => .ok path
  | .ok _ => .error (.option (.noSuchMapping path.text))

def sourceOf (here : Path) (t : FileTree) (pairs : List Text) (reversed : List Int)
    (index : Nat) (mapping : Text) : Except Fault MappingSource := do
  let path ← existingFile here t mapping
  let (source, target) ← namespacesOf (pairs[index]?.getD [])
  return ⟨path, source, target, reversed.contains (index : Int)⟩

def sourcesFrom (here : Path) (t : FileTree) (pairs : List Text) (reversed : List Int) :
    Nat → List Text → Except Fault (List MappingSource)
  | _, [] => .ok []
  | i, m :: ms => do
    let s ← sourceOf here t pairs reversed i m
    return s :: (← sourcesFrom here t pairs reversed (i + 1) ms)

/-- The mapping files that options describe, with the step that each is read for. -/
def sources (here : Path) (t : FileTree) (o : MappingOptions) : Except Fault (List MappingSource) :=
  let pairs := namespacePairs o.namespaces
  if o.mappings.length < pairs.length then .error (.option .tooManyPairs)
  else
    match reverseIndexes? o.reverse with
    | none => .error (.option (.invalidReverse o.reverse))
    | some indexes =>
      match outOfRange o.mappings.length indexes with
      | [] => sourcesFrom here t pairs indexes 0 o.mappings
      | i :: is => .error (.option (.reverseOutOfRange (i :: is)))

end CommandLine

end Renaming
