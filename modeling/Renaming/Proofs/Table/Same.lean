import Mathlib.Data.List.Perm.Basic
import Renaming.Proofs.OrderedMap
import Renaming.Table.Basic

/-!
# `Proofs/Table/Same` — tables that hold the same

Two tables are compared by size and by look-ups, in any order, and the comparison of two entries may
have no end. Where the maps look up the same (`SameLookups`), they are of one size as well, and what
is left to ask is that each entry is decided to be the same as itself. That is not so of every
entry, because a comment can be a value that is not equal to itself.
-/

set_option autoImplicit false

namespace Renaming

namespace OrderedMap

variable {κ α : Type} [DecidableEq κ] {m n : OrderedMap κ α}

theorem perm_of_get? (h : ∀ k, m.get? k = n.get? k) : m.toList.Perm n.toList := by
  rw [List.perm_ext_iff_of_nodup m.nodup_keys.of_map n.nodup_keys.of_map]
  rintro ⟨k, v⟩
  rw [← get?_eq_some_iff, ← get?_eq_some_iff, h]

theorem sameBy_of_get? {eq : α → α → Bool} (heq : ∀ v, eq v v = true)
    (h : ∀ k, m.get? k = n.get? k) : m.sameBy eq n = true := by
  unfold sameBy
  rw [Bool.and_eq_true, beq_iff_eq, List.all_eq_true]
  constructor
  · exact (perm_of_get? h).length_eq
  · rintro ⟨k, v⟩ hmem
    rw [← h, get?_eq_some_iff.2 hmem]
    exact heq v

end OrderedMap

/-! ## What is read off rows is equal to itself -/

@[simp] theorem Datum.same?_ofText? (c : Option Text) :
    (Datum.ofText? c).same? (.ofText? c) = some true := by
  cases c with
  | none => rfl
  | some t => exact congrArg some (beq_self_eq_true t)

@[simp] theorem Identity.same_ofKey (k : MemberKey) :
    (Identity.ofKey k).same (.ofKey k) = true := by
  obtain ⟨owner, name, _ | d⟩ := k <;> simp [Identity.same, Identity.ofKey, Signature.same]

namespace Table

/-- The tables hold the same renames and entries, in whatever order. -/
structure SameLookups (t u : Table) : Prop where
  packages : ∀ package, t.packages.get? package = u.packages.get? package
  classes : ∀ name, t.classes.get? name = u.classes.get? name
  fields : ∀ key, t.fields.get? key = u.fields.get? key
  methods : ∀ key, t.methods.get? key = u.methods.get? key
  entries : ∀ k, t.entries.get? k = u.entries.get? k

theorem allM_eq_some_true {α : Type} {f : α → Option Bool} {l : List α}
    (h : ∀ x ∈ l, f x = some true) : l.allM f = some true := by
  induction l with
  | nil => rfl
  | cons x l ih =>
    rw [List.allM, h x List.mem_cons_self]
    exact ih fun y hy => h y (List.mem_cons_of_mem _ hy)

/-- Tables that look up the same are the same. -/
theorem SameLookups.same? {t u : Table} (h : SameLookups t u)
    (hself : ∀ e ∈ u.entries.values, e.same? e = some true) : t.same? u = some true := by
  have hrenames : t.sameRenames u = true := by
    unfold sameRenames
    rw [OrderedMap.sameBy_of_get? (fun v => beq_self_eq_true v) h.packages,
      OrderedMap.sameBy_of_get? (fun v => beq_self_eq_true v) h.classes,
      OrderedMap.sameBy_of_get? (fun v => beq_self_eq_true v) h.fields,
      OrderedMap.sameBy_of_get? (fun v => beq_self_eq_true v) h.methods]
    rfl
  have hsize : t.entries.size = u.entries.size := (OrderedMap.perm_of_get? h.entries).length_eq
  rw [Table.same?, hrenames, if_pos rfl, sameEntries?, if_neg (not_not_intro hsize)]
  apply allM_eq_some_true
  rintro ⟨k, e⟩ hmem
  dsimp only
  rw [h.entries, OrderedMap.get?_eq_some_iff.2 hmem]
  exact hself e (List.mem_map_of_mem hmem)

end Table

end Renaming
