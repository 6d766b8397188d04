import Renaming.Datum.Basic

/-!
# `Datum/Same` — when two values are one

Two collections are one when their parts are, those of lists in order and those of mappings under
the same keys. A collection is one with itself without a look at its parts. Two different
collections that lead back to themselves in step have no end of parts to compare: a comparison
that comes up inside itself is never decided, and `same?` is then `none`.

The parts are gone through in order, and the first ones that are not the same decide, so what lies
behind them does not matter.
-/

set_option autoImplicit false

namespace Renaming

namespace Datum

/-- A collection by its document and its number in it. -/
abbrev Place := Nat × Nat

/-- Whether two parts are one. The comparisons under way are in `path`. -/
def samePart : Nat → List (Place × Place) → Store → Part → Store → Part → Option Bool
  | _, _, _, .atom a, _, .atom b => some (a.same b)
  | fuel + 1, path, s, .link i, t, .link j =>
    let here : Place × Place := ((s.document, i), (t.document, j))
    if here.1 = here.2 then some true
    else if here ∈ path then none
    else
      let same := samePart fuel (here :: path)
      match s.get i, t.get j with
      | .list as, .list bs =>
        if as.length ≠ bs.length then some false
        else (as.zip bs).allM fun p => same s p.1 t p.2
      | .pairs as, .pairs bs =>
        if as.length ≠ bs.length then some false
        else (as.zip bs).allM fun p => do
          if ← same s p.1.1 t p.2.1 then same s p.1.2 t p.2.2 else return false
      | .mapping as, .mapping bs =>
        if as.length ≠ bs.length then some false
        else as.allM fun a =>
          match Atom.get? a.1 bs with
          | some b => same t b s a.2
          | none => some false
      | .set as, .set bs => some (as.length == bs.length && as.all fun a => bs.any a.same)
      | _, _ => some false
  | _, _, _, _, _, _ => some false

/-- A bound on the comparisons of two stores that can be under way at once, which are all
different. -/
def comparisons (s t : Store) : Nat := 2 * s.size * t.size + 1

/-- Whether two values are one, none where finding out has no end. -/
def same? : Datum → Datum → Option Bool
  | atom a, atom b => some (a.same b)
  | collection s i, collection t j => samePart (comparisons s t) [] s (.link i) t (.link j)
  | _, _ => some false

/-- Whether two values that stand alone are unequal, none where finding out has no end. -/
def differ? : Datum → Datum → Option Bool
  | atom a, atom b => some (a.differs b)
  | a, b => (same? a b).map (!·)

end Datum

end Renaming
