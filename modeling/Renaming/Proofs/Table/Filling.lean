import Renaming.Proofs.OrderedMap
import Renaming.Table.Basic

/-!
# `Proofs/Table/Filling` — loops that fill a table

A table is filled by loops, and each loop touches one or two of its maps. What is asked of such a
loop is always one of two things: that it leaves a map alone (`foldl_keeps`), or which pairs it
writes into it (`foldl_insertAll`, and `foldl_insertOne` for loops that write at most one pair at a
time).
-/

set_option autoImplicit false

namespace Renaming

namespace Table

/-- What each step of a loop leaves alone, the loop leaves alone. -/
theorem foldl_keeps {α β γ : Type} (f : β → γ) {g : β → α → β} (h : ∀ r a, f (g r a) = f r)
    (l : List α) (r : β) : f (l.foldl g r) = f r := by
  induction l generalizing r with
  | nil => rfl
  | cons a l ih => rw [List.foldl_cons, ih, h]

section Writing

variable {α κ β : Type} [DecidableEq κ] (f : Table → OrderedMap κ β) {step : Table → α → Table}

theorem foldl_insertAll (pairs : α → List (κ × β)) {l : List α}
    (h : ∀ r, ∀ x ∈ l, f (step r x) = (f r).insertAll (pairs x)) (r : Table) :
    f (l.foldl step r) = (f r).insertAll (l.flatMap pairs) := by
  induction l generalizing r with
  | nil => rfl
  | cons x l ih =>
    rw [List.foldl_cons, ih fun r y hy => h r y (List.mem_cons_of_mem _ hy),
      h r x List.mem_cons_self, List.flatMap_cons, OrderedMap.insertAll_append]

theorem foldl_insertOne (pair : α → Option (κ × β)) {l : List α}
    (h : ∀ r, ∀ x ∈ l, f (step r x) = (f r).insertAll (pair x).toList) (r : Table) :
    f (l.foldl step r) = (f r).insertAll (l.filterMap pair) := by
  rw [foldl_insertAll f _ h, ← List.filterMap_eq_flatMap_toList]

end Writing

end Table

end Renaming
