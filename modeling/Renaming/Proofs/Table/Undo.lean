import Renaming.Proofs.Table.Reverse
import Renaming.Proofs.Table.Sequence

/-!
# `Proofs/Table/Undo` — finding a renamed member in the table turned round

A text that was renamed with a table names a member by the new names: its owner and the classes of
its descriptor as the whole look-up answers them, by class entries of any level and by packages. A
table turned round keeps the member under a key that was made from class entries alone, the owner by
those of enclosing classes too and the descriptor by exact ones only. So the name in the text is led
back where both ways of naming the classes agree (`NamedAlike`), and otherwise only by chance, when
another member happens to lie where the look-up goes (`mapMember_reverse`).
-/

set_option autoImplicit false

namespace Renaming

namespace Table

variable {t : Table}

/-- A member as it stands in a text that was renamed: its classes are looked up on all levels. -/
def writtenMember (t : Table) (k : MemberKey) (target : Text) : MemberKey :=
  ⟨t.mapClass k.owner, target, k.descriptor.map (Descriptor.rename t.mapClass)⟩

/-- The table turned round leads the member back from what stands in a renamed text. -/
def Undone (t : Table) (kind : MemberKind) (k : MemberKey) : Prop :=
  t.reverse.mapMember kind (t.writtenMember k (t.mapMember kind k)) = k.name

instance (t : Table) (kind : MemberKind) (k : MemberKey) : Decidable (t.Undone kind k) :=
  inferInstanceAs (Decidable (_ = _))

/-- No name is one of the machine's own, and a field goes by its name alone. -/
structure Undoable (kind : MemberKind) (k : MemberKey) (target : Text) : Prop where
  source : ¬ IsFixed kind k.name
  target : ¬ IsFixed kind target
  bare : kind = .field → k.descriptor = none

/-- The whole look-up names the owner as the class entries alone do, and each class of the
descriptor as its own entry does. -/
structure NamedAlike (t : Table) (k : MemberKey) : Prop where
  owner : t.mapClass k.owner = t.mapNested k.owner
  classes : ∀ d ∈ k.descriptor, ∀ c ∈ Descriptor.classNames d, t.mapClass c = t.renameClass c

/-- A member called `name` is kept under the key of `q` when the table is turned round. -/
def ReversesTo (t : Table) (kind : MemberKind) (q : MemberKey) (name : Text) : Prop :=
  ∃ key target k, (kind.names t).get? key = some target ∧ kind.read key = .ok k ∧
    (t.targetMember k target).format = q.format ∧ k.name = name

theorem get?_reverse_names {kind : MemberKind} (h : t.DistinctReversals kind) (q : MemberKey)
    (name : Text) :
    (kind.names t.reverse).get? q.format = some name ↔ t.ReversesTo kind q name := by
  rw [reverse_names, OrderedMap.get?_ofList_iff (OrderedMap.functional_of_nodup h)]
  unfold reversals
  rw [List.mem_filterMap]
  constructor
  · rintro ⟨⟨key, target⟩, hp, hreversal⟩
    obtain ⟨k, hk, hpair⟩ := Option.map_eq_some_iff.1 hreversal
    rw [Prod.mk.injEq] at hpair
    have hread : kind.read key = .ok k := by
      change (kind.read key).toOption = some k at hk
      cases hr : kind.read key with
      | error e => rw [hr] at hk; cases hk
      | ok k' => rw [hr] at hk; cases hk; rfl
    exact ⟨key, target, k, OrderedMap.get?_eq_some_iff.2 hp, hread, hpair.1, hpair.2⟩
  · rintro ⟨key, target, k, hget, hread, hformat, hname⟩
    refine ⟨(key, target), OrderedMap.get?_eq_some_iff.1 hget, ?_⟩
    rw [reversal_of_read hread, hformat, hname]

/-- Where both ways of naming classes agree, a renamed text has the member under its reversed
key. -/
theorem NamedAlike.targetMember_eq {k : MemberKey} (h : t.NamedAlike k) (target : Text) :
    t.targetMember k target = t.writtenMember k target := by
  have hdescriptor : k.descriptor.map t.renameDescriptor =
      k.descriptor.map (Descriptor.rename t.mapClass) := by
    apply Option.map_congr
    intro d hd
    apply Descriptor.rename_congr
    intro c hc
    exact (h.classes d hd c hc).symm
  show MemberKey.mk _ target (k.descriptor.map t.renameDescriptor) = _
  rw [hdescriptor, ← h.owner]
  rfl

/-- What the look-up finds in the table turned round. -/
theorem undone_iff (hx : t.excluded = []) {kind : MemberKind} (hd : t.DistinctReversals kind)
    {key target : Text} {k : MemberKey} (hget : (kind.names t).get? key = some target)
    (hread : kind.read key = .ok k) (hk : Undoable kind k target) :
    t.Undone kind k ↔ t.ReversesTo kind (t.writtenMember k target) k.name ∨
      target = k.name ∧ ∀ name, ¬ t.ReversesTo kind (t.writtenMember k target) name := by
  -- there is one key to look up, because a field is looked up without a signature
  have hkeys : kind.keys (t.writtenMember k target) = [(t.writtenMember k target).format] := by
    cases kind with
    | field =>
      obtain ⟨owner, name, descriptor⟩ := k
      obtain rfl : descriptor = none := hk.bare rfl
      rfl
    | method => rfl
  unfold Undone
  rw [mapMember_of_get? hx hk.source hread hget,
    mapMember_eq_newName t.reverse_excluded hk.target, newName_of_keys hkeys, OrderedMap.getD]
  cases hfound : (kind.names t.reverse).get? (t.writtenMember k target).format with
  | some name =>
    rw [Option.getD_some]
    constructor
    · rintro rfl
      exact .inl ((get?_reverse_names hd _ _).1 hfound)
    · rintro (h | ⟨-, h⟩)
      · rw [(get?_reverse_names hd _ _).2 h] at hfound
        exact (Option.some.inj hfound).symm
      · exact absurd ((get?_reverse_names hd _ _).1 hfound) (h name)
  | none =>
    have hnone : ∀ name, ¬ t.ReversesTo kind (t.writtenMember k target) name := by
      intro name h
      rw [(get?_reverse_names hd _ _).2 h] at hfound
      cases hfound
    rw [Option.getD_none]
    constructor
    · exact fun h => .inr ⟨h, hnone⟩
    · rintro (h | h)
      · exact absurd h (hnone _)
      · exact h.1

/-- **What a table turned round undoes.** A member is led back from a renamed text whenever no
package and no enclosing class has a say in the names that the text has for its classes, the owner's
enclosing classes apart. In general it is led back exactly when some member of its name lies under
the key that is looked up, or when there is nothing to lead back and none lies there. -/
theorem mapMember_reverse (hx : t.excluded = []) (hd : ∀ kind, t.DistinctReversals kind)
    {kind : MemberKind} {key target : Text} {k : MemberKey}
    (hget : (kind.names t).get? key = some target) (hread : kind.read key = .ok k)
    (hk : Undoable kind k target) :
    (t.NamedAlike k → t.Undone kind k) ∧
      (t.Undone kind k ↔ t.ReversesTo kind (t.writtenMember k target) k.name ∨
        target = k.name ∧ ∀ name, ¬ t.ReversesTo kind (t.writtenMember k target) name) := by
  have hiff := undone_iff hx (hd kind) hget hread hk
  refine ⟨fun h => hiff.2 (.inl ⟨key, target, k, hget, hread, ?_, rfl⟩), hiff⟩
  rw [h.targetMember_eq]

/-- A nested owner that follows the class around it, and an array of a class in the descriptor. -/
theorem mapMember_reverse_nested :
    let t := (empty.addClass "a/A".toList "b/B".toList .null).addMethod
      "a/A$I/m ([La/A;)V".toList "k".toList
    let k : MemberKey := ⟨"a/A$I".toList, "m".toList, some "([La/A;)V".toList⟩
    t.excluded = [] ∧ (∀ kind, t.DistinctReversals kind) ∧
      t.methods.get? "a/A$I/m ([La/A;)V".toList = some "k".toList ∧
      MemberKey.parseMethod "a/A$I/m ([La/A;)V".toList = .ok k ∧
      Undoable .method k "k".toList ∧ t.NamedAlike k ∧ t.Undone .method k := by
  intro t k
  have hd : ∀ kind, t.DistinctReversals kind := by
    unfold DistinctReversals
    rintro (_ | _) <;> decide +kernel
  have hget : t.methods.get? "a/A$I/m ([La/A;)V".toList = some "k".toList := by decide
  have hread : MemberKey.parseMethod "a/A$I/m ([La/A;)V".toList = .ok k := by rfl
  have hk : Undoable .method k "k".toList := by
    refine ⟨?_, ?_, ?_⟩
    · unfold IsFixed
      decide
    · unfold IsFixed
      decide
    · intro h
      cases h
  have halike : t.NamedAlike k := ⟨by decide +kernel, by decide +kernel⟩
  have hundone := @mapMember_reverse t rfl hd .method _ _ k hget hread hk
  exact ⟨rfl, hd, hget, hread, hk, halike, hundone.1 halike⟩

/-- The classes that the keys of the members name. -/
def memberClasses (t : Table) : List Text :=
  (t.fields.keys ++ t.methods.keys).flatMap fun key =>
    match MemberKey.parse key with
    | .ok k => k.owner :: k.descriptor.toList.flatMap Descriptor.classNames
    | .error _ => []

/-- Members that are not led back although the look-up takes no two classes of the table to one
name. In order: a nested class in the descriptor follows the class around it; the owner is moved
with its package; a class in the descriptor is moved with its package; the owner of a field is moved
with its package. -/
theorem mapMember_reverse_ne :
    let nested := (empty.addClass "a/A".toList "b/B".toList .null).addMethod
      "a/A/m (La/A$I;)V".toList "k".toList
    let moved := ((empty.addPackage "a".toList "b".toList).addMethod "a/X/m ()V".toList
      "k".toList).addField "a/X/f".toList "g".toList
    let named := ((empty.addPackage "a".toList "b".toList).addClass "z/X".toList "y/Y".toList
      .null).addMethod "z/X/m (La/C;)V".toList "k".toList
    ∀ x ∈ [(nested, MemberKind.method, MemberKey.mk "a/A".toList "m".toList
          (some "(La/A$I;)V".toList)),
        (moved, .method, ⟨"a/X".toList, "m".toList, some "()V".toList⟩),
        (named, .method, ⟨"z/X".toList, "m".toList, some "(La/C;)V".toList⟩),
        (moved, .field, ⟨"a/X".toList, "f".toList, none⟩)],
      x.1.excluded = [] ∧
      (∀ a ∈ x.1.memberClasses, ∀ b ∈ x.1.memberClasses, x.1.mapClass a = x.1.mapClass b → a = b) ∧
      (x.1.DistinctReversals .field ∧ x.1.DistinctReversals .method) ∧
      x.2.2.format ∈ (x.2.1.names x.1).keys ∧
      (x.2.1.read x.2.2.format).toOption = some x.2.2 ∧
      (∀ name ∈ [x.2.2.name, x.1.mapMember x.2.1 x.2.2], isConstructor name = false) ∧
      ¬ x.1.Undone x.2.1 x.2.2 := by
  unfold DistinctReversals
  decide +kernel

end Table

end Renaming
