import Mathlib.Data.List.Basic
import Renaming.Table.Lookup

/-!
# `Proofs/Table/Package` — the package that moves a class

`relocate` searches all packages for the longest that begins the name of the class, and puts the
rest of the name into the new package. Which package that is can be said without the search:

> a class with a slash in its name moves with the longest listed package that begins its name, a
> class without one with the root.

`IsMoved` says this for one package and `IsUnmoved` that there is none; one of the two always holds
(`exists_isMoved`), and each tells what `relocate` answers.
-/

set_option autoImplicit false

namespace Renaming

namespace Table

theorem startsWith_iff {p name : Text} : Text.startsWith p name = true ↔ p <+: name :=
  List.isPrefixOf_iff_prefix

/-- No package of the list begins the name. -/
theorem longestPrefix?_eq_none {name : Text} {l : List (Text × Text)}
    (h : longestPrefix? name l = none) : ∀ p ∈ l, p.1 ≠ Package.root → ¬ p.1 <+: name := by
  induction l with
  | nil => exact fun p hp => absurd hp List.not_mem_nil
  | cons q r ih =>
    intro p hp hroot hbegins
    rw [longestPrefix?] at h
    split at h
    · split at h <;> cases h
    · rename_i hnone
      split at h
      · cases h
      · rename_i hq
        rcases List.mem_cons.1 hp with rfl | hp
        · exact hq ⟨hroot, startsWith_iff.2 hbegins⟩
        · exact ih hnone p hp hroot hbegins

/-- The package that was found begins the name, and no other one that does is longer. -/
theorem longestPrefix?_eq_some {name : Text} {l : List (Text × Text)} {p : Text × Text}
    (h : longestPrefix? name l = some p) :
    p ∈ l ∧ p.1 ≠ Package.root ∧ p.1 <+: name ∧
      ∀ q ∈ l, q.1 ≠ Package.root → q.1 <+: name → q.1.length ≤ p.1.length := by
  induction l generalizing p with
  | nil => cases h
  | cons q r ih =>
    rw [longestPrefix?] at h
    split at h
    · rename_i p' hsome
      obtain ⟨hmem, hroot, hbegins, hlongest⟩ := ih hsome
      split at h
      · rename_i hq
        obtain rfl := Option.some.inj h
        refine ⟨List.mem_cons_self, hq.1, startsWith_iff.1 hq.2.1, fun q' hq' hr hp => ?_⟩
        rcases List.mem_cons.1 hq' with rfl | hq'
        · exact Nat.le_refl _
        · exact Nat.le_trans (hlongest q' hq' hr hp) hq.2.2
      · rename_i hq
        obtain rfl := Option.some.inj h
        refine ⟨List.mem_cons_of_mem _ hmem, hroot, hbegins, fun q' hq' hr hp => ?_⟩
        rcases List.mem_cons.1 hq' with rfl | hq'
        · -- `q'` begins the name as well, so it was passed over for its length
          by_contra hlt
          exact hq ⟨hr, startsWith_iff.2 hp, by omega⟩
        · exact hlongest q' hq' hr hp
    · rename_i hnone
      split at h
      · rename_i hq
        obtain rfl := Option.some.inj h
        refine ⟨List.mem_cons_self, hq.1, startsWith_iff.1 hq.2, fun q' hq' hr hp => ?_⟩
        rcases List.mem_cons.1 hq' with rfl | hq'
        · exact Nat.le_refl _
        · exact absurd hp (longestPrefix?_eq_none hnone q' hq' hr)
      · cases h

/-! ## The package that decides -/

/-- The class is moved from package `p` to package `target`, with `rest` for the rest of its
name. -/
structure IsMoved (t : Table) (name p target rest : Text) : Prop where
  own : t.packages.get? p = some target
  split : name = placeIn p rest
  /-- Exactly the classes without a slash lie in the root. -/
  root : '/' ∈ name ↔ p ≠ Package.root
  longest : p ≠ Package.root →
    ∀ p' ∈ t.packages.keys, p' ≠ Package.root → p' <+: name → p'.length ≤ p.length

/-- No package of the table moves the class. -/
structure IsUnmoved (t : Table) (name : Text) : Prop where
  listed : '/' ∈ name → ∀ p ∈ t.packages.keys, p ≠ Package.root → ¬ p <+: name
  root : '/' ∉ name → Package.root ∉ t.packages.keys

theorem IsMoved.mem_keys {t : Table} {name p target rest : Text}
    (h : t.IsMoved name p target rest) : p ∈ t.packages.keys :=
  List.mem_map.2 ⟨(p, target), OrderedMap.get?_eq_some_iff.1 h.own, rfl⟩

theorem relocate_of_isUnmoved {t : Table} {name : Text} (h : t.IsUnmoved name) :
    t.relocate name = name := by
  unfold relocate
  split
  · rename_i hslash
    split
    · rename_i source target hl
      obtain ⟨hmem, hroot, hbegins, -⟩ := longestPrefix?_eq_some hl
      exact absurd hbegins (h.listed hslash source (List.mem_map_of_mem hmem) hroot)
    · rfl
  · rename_i hslash
    rw [OrderedMap.get?_eq_none_iff.2 (h.root hslash)]

theorem relocate_of_isMoved {t : Table} {name p target rest : Text}
    (h : t.IsMoved name p target rest) : t.relocate name = placeIn target rest := by
  unfold relocate
  by_cases hroot : p = Package.root
  · have hslash : '/' ∉ name := fun hmem => h.root.1 hmem hroot
    have hname : name = rest := by rw [h.split, placeIn, if_pos hroot]
    rw [if_neg hslash, ← hroot, h.own, hname]
  · have hname : name = p ++ rest := by rw [h.split, placeIn, if_neg hroot]
    have hbegins : p <+: name := ⟨rest, hname.symm⟩
    rw [if_pos (h.root.2 hroot)]
    cases hl : longestPrefix? name t.packages.toList with
    | none =>
      exact absurd hbegins (longestPrefix?_eq_none hl _ (OrderedMap.get?_eq_some_iff.1 h.own) hroot)
    | some q =>
      obtain ⟨q, target'⟩ := q
      obtain ⟨hmem, hroot', hbegins', hlongest⟩ := longestPrefix?_eq_some hl
      -- two packages of one length that begin the name are one
      have hlen : q.length = p.length := Nat.le_antisymm
        (h.longest hroot q (List.mem_map_of_mem hmem) hroot' hbegins')
        (hlongest _ (OrderedMap.get?_eq_some_iff.1 h.own) hroot hbegins)
      obtain rfl : q = p :=
        (List.prefix_of_prefix_length_le hbegins' hbegins (Nat.le_of_eq hlen)).eq_of_length hlen
      have htarget : t.packages.get? q = some target' := OrderedMap.get?_eq_some_iff.2 hmem
      rw [h.own] at htarget
      obtain rfl := Option.some.inj htarget
      show placeIn target (name.drop q.length) = _
      rw [hname, List.drop_left]

/-- A package moves a class or none does. -/
theorem exists_isMoved (t : Table) (name : Text) :
    t.IsUnmoved name ∨ ∃ p target rest, t.IsMoved name p target rest := by
  by_cases hslash : '/' ∈ name
  · cases hl : longestPrefix? name t.packages.toList with
    | none =>
      refine .inl ⟨fun _ p hp hroot => ?_, fun h => absurd hslash h⟩
      obtain ⟨q, hq, rfl⟩ := List.mem_map.1 hp
      exact longestPrefix?_eq_none hl q hq hroot
    | some q =>
      obtain ⟨hmem, hroot, ⟨rest, hrest⟩, hlongest⟩ := longestPrefix?_eq_some hl
      refine .inr ⟨q.1, q.2, rest, OrderedMap.get?_eq_some_iff.2 hmem, ?_,
        iff_of_true hslash hroot, fun _ p' hp' hroot' hbegins' => ?_⟩
      · rw [placeIn, if_neg hroot, hrest]
      · obtain ⟨q', hq', rfl⟩ := List.mem_map.1 hp'
        exact hlongest q' hq' hroot' hbegins'
  · cases hget : t.packages.get? Package.root with
    | none =>
      exact .inl ⟨fun h => absurd h hslash, fun _ => OrderedMap.get?_eq_none_iff.1 hget⟩
    | some target =>
      refine .inr ⟨Package.root, target, name, hget, ?_, ?_, fun h => absurd rfl h⟩
      · rw [placeIn, if_pos rfl]
      · exact iff_of_false hslash fun h => h rfl

end Table

end Renaming
