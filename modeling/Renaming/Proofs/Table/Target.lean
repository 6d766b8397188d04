import Renaming.Proofs.OrderedMap
import Renaming.Proofs.Symbol.Nesting
import Renaming.Table.Lookup

/-!
# `Proofs/Table/Target` — what a table can answer

A new name is never made up: it is a target of the table, possibly with a part of the old name
behind it. So whatever holds of every character of the targets and of the old name holds of every
character of the new one. The rewriter needs this for quotes, for the marks that end a name, and
for blanks; it is stated once, for any class of characters.
-/

set_option autoImplicit false

namespace Renaming

namespace Table

/-- The names that a table puts in place of others. -/
inductive IsTarget (t : Table) : Text → Prop
  | ofPackage {target : Text} (h : target ∈ t.packages.values) : IsTarget t target
  | ofClass {target : Text} (h : target ∈ t.classes.values) : IsTarget t target
  | ofField {target : Text} (h : target ∈ t.fields.values) : IsTarget t target
  | ofMethod {target : Text} (h : target ∈ t.methods.values) : IsTarget t target

def targets (t : Table) : List Text :=
  t.packages.values ++ (t.classes.values ++ (t.fields.values ++ t.methods.values))

theorem isTarget_iff {t : Table} {target : Text} : t.IsTarget target ↔ target ∈ t.targets := by
  simp only [targets, List.mem_append]
  constructor
  · rintro (h | h | h | h)
    · exact .inl h
    · exact .inr (.inl h)
    · exact .inr (.inr (.inl h))
    · exact .inr (.inr (.inr h))
  · rintro (h | h | h | h)
    · exact .ofPackage h
    · exact .ofClass h
    · exact .ofField h
    · exact .ofMethod h

/-- No name that the table puts in place of another holds the character. -/
def FreeOf (t : Table) (c : Char) : Prop := ∀ target, t.IsTarget target → c ∉ target

instance (t : Table) (c : Char) : Decidable (t.FreeOf c) :=
  decidable_of_iff (∀ target ∈ t.targets, c ∉ target)
    (forall_congr' fun _ => imp_congr isTarget_iff.symm Iff.rfl)

theorem mem_of_longestPrefix?_eq_some {name : Text} {l : List (Text × Text)} {p : Text × Text}
    (h : longestPrefix? name l = some p) : p ∈ l := by
  induction l with
  | nil => cases h
  | cons q r ih =>
    rw [longestPrefix?] at h
    split at h
    · rename_i q' hq
      split at h
      · cases h; exact List.mem_cons_self
      · cases h; exact List.mem_cons_of_mem _ (ih hq)
    · split at h
      · cases h; exact List.mem_cons_self
      · cases h

section Characters

variable {t : Table} {p : Char → Prop}

theorem placeIn_forall {package name : Text} (hp : ∀ c ∈ package, p c) (hn : ∀ c ∈ name, p c) :
    ∀ c ∈ placeIn package name, p c := by
  unfold placeIn
  split
  · exact hn
  · intro c hc
    rcases List.mem_append.1 hc with hc | hc
    · exact hp c hc
    · exact hn c hc

theorem relocate_forall {name : Text} (ht : ∀ target, t.IsTarget target → ∀ c ∈ target, p c)
    (hn : ∀ c ∈ name, p c) : ∀ c ∈ t.relocate name, p c := by
  unfold relocate
  split
  · split
    · rename_i source target hl
      refine placeIn_forall (ht target (.ofPackage ?_)) fun c hc => hn c (List.mem_of_mem_drop hc)
      exact List.mem_map.2 ⟨_, mem_of_longestPrefix?_eq_some hl, rfl⟩
    · exact hn
  · split
    · rename_i target hroot
      exact placeIn_forall (ht target (.ofPackage (OrderedMap.mem_values_of_get? hroot))) hn
    · exact hn

/-- For the classes alone the targets of classes are enough. -/
theorem mapNested_forall {name : Text} (ht : ∀ target ∈ t.classes.values, ∀ c ∈ target, p c)
    (hn : ∀ c ∈ name, p c) : ∀ c ∈ t.mapNested name, p c := by
  unfold mapNested
  rcases exists_isNearest t.classes.get? name with hnone | ⟨outer, mapped, rest, h⟩
  · rw [resolveNested_of_forall_none hnone]
    exact hn
  · rw [resolveNested_of_isNearest h]
    intro c hc
    rcases List.mem_append.1 hc with hc | hc
    · exact ht mapped (OrderedMap.mem_values_of_get? h.own) c hc
    · exact hn c (by rw [h.split]; exact List.mem_append_right _ hc)

/-- **A new class name has only characters of targets and of the old name.** -/
theorem mapClass_forall {name : Text} (ht : ∀ target, t.IsTarget target → ∀ c ∈ target, p c)
    (hn : ∀ c ∈ name, p c) : ∀ c ∈ t.mapClass name, p c := by
  unfold mapClass
  split
  · exact hn
  · dsimp only
    split
    · exact relocate_forall ht hn
    · exact mapNested_forall (fun target h => ht target (.ofClass h)) hn

/-- A new field name is a target or the old name. -/
theorem mapField_eq (t : Table) (owner name : Text) (d : Option Text) :
    t.mapField owner name d = name ∨ t.IsTarget (t.mapField owner name d) := by
  unfold mapField
  split
  · exact .inl rfl
  · cases h : t.findField? owner name d with
    | none => exact .inl rfl
    | some target =>
      refine .inr (.ofField ?_)
      unfold findField? at h
      split at h
      · rename_i mapped hm
        cases h
        obtain ⟨d', -, hd⟩ := Option.bind_eq_some_iff.1 hm
        exact OrderedMap.mem_values_of_get? hd
      · exact OrderedMap.mem_values_of_get? h

/-- A new method name is a target or the old name. -/
theorem mapMethod_eq (t : Table) (owner name : Text) (d : Option Text) :
    t.mapMethod owner name d = name ∨ t.IsTarget (t.mapMethod owner name d) := by
  unfold mapMethod
  split
  · exact .inl rfl
  · unfold OrderedMap.getD
    cases h : t.methods.get? (MemberKey.mk owner name d).format with
    | none => exact .inl rfl
    | some target => exact .inr (.ofMethod (OrderedMap.mem_values_of_get? h))

end Characters

/-- A class that its own rename changes is changed in the same way by the whole look-up. -/
theorem mapClass_of_mapClassExact_ne {t : Table} {name : Text} (h : t.mapClassExact name ≠ name) :
    t.mapClass name = t.mapClassExact name := by
  unfold mapClassExact at h ⊢
  unfold mapClass
  split at h
  · exact absurd rfl h
  · rename_i hx
    rw [if_neg hx, if_neg hx]
    unfold OrderedMap.getD at h ⊢
    cases hc : t.classes.get? name with
    | none => rw [hc] at h; exact absurd rfl h
    | some mapped =>
      rw [hc] at h
      have : t.mapNested name = mapped := resolveNested_of_find hc
      rw [this]
      exact if_neg h

end Table

end Renaming
