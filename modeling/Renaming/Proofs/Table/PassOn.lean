import Renaming.Proofs.Table.Chain
import Renaming.Proofs.Table.Member

/-!
# `Proofs/Table/PassOn` — what a composition asks of its second table

A composition has the members of its first table and carries each of them on by one look-up in the
second. What is looked up is the member as the first table passes it on (`passOn`): with its new
name, its owner renamed by the class entries around it and its descriptor by exact ones. For a field
without descriptor it is the signature that the entry of the field records. The look-up is that of
`mapMember` less its exceptions (`newName`), so there is one sentence for both kinds of members:

> the name in the composition is the new name, in the second table, of what the first passes on
> (`get?_compose_names`).
-/

set_option autoImplicit false

namespace Renaming

namespace Table

variable {first second : Table}

/-- A member of a table with the name `mid`, as the table passes it on to the next one. A field
without a descriptor has the signature that its entry records. -/
def passOn (t : Table) (kind : MemberKind) (k : MemberKey) (mid : Text) : MemberKey where
  owner := t.mapNested k.owner
  name := mid
  descriptor :=
    match kind with
    | .field => (fieldSignature t.bySource k).map (Signature.rename t.renameClass)
    | .method => k.descriptor.map t.renameDescriptor

/-- **A member of a composition is a member of the first table, carried on by the second.** -/
theorem get?_compose_names (first second : Table) (kind : MemberKind) (key : Text) :
    (kind.names (first.compose second)).get? key =
      ((kind.names first).get? key).bind fun mid => (kind.read key).toOption.map fun k =>
        second.newName kind (first.passOn kind k mid) := by
  cases kind with
  | field =>
    show (first.compose second).fields.get? key = _
    rw [get?_compose_fields]
    congr 1
    funext mid
    congr 1
    funext k
    rw [newName_field]
    rfl
  | method =>
    show (first.compose second).methods.get? key = _
    rw [get?_compose_methods]
    congr 1
    funext mid
    congr 1
    funext k
    rw [newName_method]
    rfl

theorem get?_compose_names_of_get? {kind : MemberKind} {key mid : Text} {k : MemberKey}
    (hget : (kind.names first).get? key = some mid) (hread : kind.read key = .ok k) :
    (kind.names (first.compose second)).get? key =
      some (second.newName kind (first.passOn kind k mid)) := by
  rw [get?_compose_names, hget, hread]
  rfl

/-- Without descriptors in its keys, a table knows a field by its owner and name. -/
theorem newName_field_of_bareFields {t : Table} (ht : t.BareFields) (k : MemberKey) :
    t.newName .field k = t.fields.getD (bareKey k.owner k.name) k.name := by
  have hnone : (k.descriptor.bind fun d => t.fields.get? (qualifiedKey k.owner k.name d)) =
      none := by
    cases k.descriptor with
    | none => rfl
    | some d => exact OrderedMap.get?_eq_none_iff.2 (ht k.owner k.name d)
  rw [newName_field, findField?, hnone]
  rfl

end Table

end Renaming
