import Renaming.Mapping.Build
import Renaming.Proofs.Table.SourceIndex

/-!
# `Proofs/Mapping/Renames` — a table as the list of its renames

A table is made of a mapping by loops within loops. All they do, apart from packages, is to write
renames (`Table.write`), so the table is that of one list (`tableBetween_eq`): the classes first,
and then for each class its fields and its methods. Whatever depends on which row comes before which
is said about this list.
-/

set_option autoImplicit false

namespace Renaming

namespace Mapping

/-- The rename of a member row, if it has a name in the source tier and is no method without a
descriptor. -/
def memberRename? (n : TierNames) (s t : Nat) (kind : MemberKind) (source target : Text)
    (row : MemberRow) : Option Entry :=
  match sourceKey? n s source row with
  | none => none
  | some k =>
    if kind = .method ∧ k.descriptor = none then none
    else some (.ofMember kind (.ofKey k) (.ofKey (targetKey n s t target row)) (.ofText? row.comment))

def memberRenames (n : TierNames) (s t : Nat) (p : Text × ClassRow) : List Entry :=
  let source := (nameAt p.2.names s).getD (resolveNested n.toSource.get? p.1)
  let target := (nameAt p.2.names t).getD (resolveNested n.toTarget.get? p.1)
  p.2.fields.filterMap (memberRename? n s t .field source target) ++
    p.2.methods.filterMap (memberRename? n s t .method source target)

/-- The renames from tier `s` to tier `t`, in the order in which they are written. -/
def renamesBetween (m : Mapping) (s t : Nat) : List Entry :=
  (m.classRenames s t).map (fun r => .ofClass r.2.1 r.2.2.1 (.ofText? r.2.2.2)) ++
    m.classes.toList.flatMap (memberRenames (m.tierNames s t) s t)

/-- The renames between two namespaces, chosen as for the table. -/
def renames (m : Mapping) (source target : Option Text) : Except Fault (List Entry) := do
  let (s, t) ← m.tiers source target
  if m.isTiered && m.namespaces.isEmpty then return (← m.outermost).renamesBetween 0 1
  else return m.renamesBetween s t

def packageRenames (m : Mapping) : OrderedMap Text Text :=
  .ofList (m.packages.map fun p => (Package.canonical p.1, Package.canonical p.2))

/-- A namespace that is there has a place. -/
theorem exists_tier {m : Mapping} {a : Text} (ha : a ∈ m.namespaces) :
    ∃ i < m.namespaces.length, m.namespaces.idxOf? a = some i := by
  obtain ⟨i, hi⟩ := Option.isSome_iff_exists.1 (List.isSome_idxOf?.2 ha)
  obtain ⟨hlt, -⟩ := List.idxOf?_eq_some_iff.1 hi
  exact ⟨i, hlt, hi⟩

/-! ## The loops -/

theorem foldl_addPackage (l : List (Text × Text)) (r : Table) :
    l.foldl (fun r p => r.addPackage p.1 p.2) r =
      { r with
        packages := r.packages.insertAll
          (l.map fun p => (Package.canonical p.1, Package.canonical p.2)) } := by
  induction l generalizing r with
  | nil => rfl
  | cons p l ih =>
    rw [List.foldl_cons, ih]
    rfl

section Members

variable (n : TierNames) (s t : Nat)

theorem foldl_addFieldRow (source target : Text) (l : List MemberRow) (r : Table) :
    l.foldl (addFieldRow n s t source target) r =
      (l.filterMap (memberRename? n s t .field source target)).foldl Table.write r := by
  rw [List.foldl_filterMap]
  congr 1
  funext r row
  unfold addFieldRow memberRename?
  cases sourceKey? n s source row <;> rfl

theorem foldl_addMethodRow (source target : Text) (l : List MemberRow) (r : Table) :
    l.foldl (addMethodRow n s t source target) r =
      (l.filterMap (memberRename? n s t .method source target)).foldl Table.write r := by
  rw [List.foldl_filterMap]
  congr 1
  funext r row
  unfold addMethodRow memberRename?
  obtain _ | ⟨_, _, _ | _⟩ := sourceKey? n s source row <;> rfl

theorem addMembers_eq (r : Table) (p : Text × ClassRow) :
    addMembers n s t r p = (memberRenames n s t p).foldl Table.write r := by
  unfold addMembers memberRenames
  rw [List.foldl_append, ← foldl_addFieldRow, ← foldl_addMethodRow]

end Members

/-- **The table of two tiers is that of its renames.** -/
theorem tableBetween_eq (m : Mapping) (s t : Nat) :
    m.tableBetween s t = .ofRenames m.packageRenames (m.renamesBetween s t) := by
  unfold tableBetween renamesBetween Table.ofRenames
  dsimp only
  rw [foldl_addPackage, List.foldl_append, List.foldl_map, List.foldl_flatMap]
  congr 1
  funext r p
  exact addMembers_eq _ _ _ _ _

theorem packages_of_outermost {m m' : Mapping} (h : m.outermost = .ok m') :
    m'.packages = m.packages := by
  unfold outermost at h
  simp only [bind, Except.bind] at h
  split at h
  · cases h
  · cases h
    rfl

/-- **The table of a mapping is that of its renames.** -/
theorem table_eq (m : Mapping) (source target : Option Text) :
    m.table source target = (Table.ofRenames m.packageRenames) <$> m.renames source target := by
  unfold table renames
  cases m.tiers source target with
  | error f => rfl
  | ok tiers =>
    obtain ⟨s, t⟩ := tiers
    show (if _ then _ else _) = _ <$> (if _ then _ else _)
    split
    · cases hm' : m.outermost with
      | error f => rfl
      | ok m' =>
        show Except.ok (m'.tableBetween 0 1) = .ok _
        rw [tableBetween_eq, packageRenames, packages_of_outermost hm']
        rfl
    · show Except.ok (m.tableBetween s t) = .ok _
      rw [tableBetween_eq]

end Mapping

end Renaming
