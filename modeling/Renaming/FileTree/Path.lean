import Renaming.Text.Basic

/-!
# `FileTree/Path` — the spelling of paths

A path is a list of names below a root or below the folder at hand. Empty names and single dots
say nothing and are left out; two dots stay, because what they mean depends on the folders that
are there. `normal` takes them away by the names alone, which is right where no folder is reached
by two names.
-/

set_option autoImplicit false

namespace Renaming

/-- A path. Its root is empty for a path below the folder at hand. -/
structure Path where
  root : Text
  names : List Text
deriving DecidableEq, Repr

namespace Path

/-- The name of the folder around a folder. -/
def up : Text := ['.', '.']

/-- The root of a path in writing: one slash, or two when there are exactly two. -/
def rootOf : Text → Text
  | '/' :: '/' :: '/' :: _ => ['/']
  | '/' :: '/' :: _ => ['/', '/']
  | '/' :: _ => ['/']
  | _ => []

/-- The path that a text spells. Empty names and single dots say nothing; two dots stay, as what
they lead to is a matter of the tree. -/
def ofText (t : Text) : Path :=
  ⟨rootOf t, (Text.splitOn '/' t).filter fun n => n ≠ [] ∧ n ≠ ['.']⟩

/-- The path in writing. The folder at hand is a single dot. -/
def text (p : Path) : Text :=
  if p.root = [] ∧ p.names = [] then ['.'] else p.root ++ Text.joinWith '/' p.names

def isAbsolute (p : Path) : Bool := p.root ≠ []

/-- The path of `q` seen from `p`. A path that starts at a root stays as it is. -/
def join (p q : Path) : Path := if q.isAbsolute then q else ⟨p.root, p.names ++ q.names⟩

/-- The last name, empty for a root. -/
def name (p : Path) : Text := p.names.getLast?.getD []

def parent (p : Path) : Path := ⟨p.root, p.names.dropLast⟩

/-- The path with something appended to its last name. -/
def extend (p : Path) (suffix : Text) : Path := ⟨p.root, p.names.dropLast ++ [p.name ++ suffix]⟩

/-- The names behind those of a path in front. -/
def namesBehind : List Text → List Text → Option (List Text)
  | [], ns => some ns
  | _ :: _, [] => none
  | a :: as, n :: ns => if a = n then namesBehind as ns else none

/-- The names of `p` below `base`, if it is spelt so. -/
def below? (base p : Path) : Option (List Text) :=
  if base.root = p.root then namesBehind base.names p.names else none

/-- One name of a path applied to the names in front, newest first. -/
def enter (outer : List Text) (n : Text) : List Text := if n = up then outer.tail else n :: outer

/-- The names with every pair of dots taken away together with the name in front. -/
def normalNames (ns : List Text) : List Text := (ns.foldl enter []).reverse

/-- The path from the one root without two dots in it. -/
def normal (p : Path) : Path := ⟨['/'], normalNames p.names⟩

/-- Whether a name in the path holds the NUL character, which no name may. -/
def hasNul (p : Path) : Bool := p.names.any fun n => n.contains '\x00'

def byteLength (t : Text) : Nat := t.foldl (fun n c => n + c.utf8Size) 0

/-- The order of lists of names: name by name, the shorter list first when one begins the other. -/
def namesLe : List Text → List Text → Bool
  | [], _ => true
  | _ :: _, [] => false
  | a :: as, b :: bs => if a = b then namesLe as bs else Text.le a b

/-- The names behind a list of names are what has to be appended to it. -/
theorem namesBehind_eq_some_iff {as ns rest : List Text} :
    namesBehind as ns = some rest ↔ ns = as ++ rest := by
  induction as generalizing ns with
  | nil => simp [namesBehind, eq_comm]
  | cons a as ih =>
    cases ns with
    | nil => simp [namesBehind]
    | cons n ns =>
      rw [namesBehind]
      split
      · rename_i h; subst h; simp [ih]
      · rename_i h
        simp only [reduceCtorEq, List.cons_append, List.cons.injEq, false_iff, not_and]
        exact fun e => absurd e.symm h

end Path

end Renaming
