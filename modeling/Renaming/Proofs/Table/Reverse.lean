import Renaming.Proofs.Symbol.Descriptor
import Renaming.Proofs.Table.Compose
import Renaming.Proofs.Table.Member
import Renaming.Table.Reverse

/-!
# `Proofs/Table/Reverse` — turning a table round twice

Turning a table round swaps the two columns of each of its maps. For packages and classes that is
all. The key of a member is made anew (`reversal`): it is read, its owner and its descriptor are
renamed by the classes of the table, and it is written again with the new name of the member in it.
Turning round a second time has to read that print, to undo both renames with the classes the other
way round, and to find as many keys as there were. `Reversible` lists what this takes, and then

> a table turned round twice has the maps it had, in the order they had (`reverse_reverse`).
-/

set_option autoImplicit false

namespace Renaming

/-- A step that can be taken back from each item of a list. -/
theorem filterMap_filterMap_cancel {α β : Type} {f : α → Option β} {g : β → Option α} {l : List α}
    (h : ∀ x ∈ l, ∃ y, f x = some y ∧ g y = some x) : (l.filterMap f).filterMap g = l := by
  induction l with
  | nil => rfl
  | cons x l ih =>
    obtain ⟨y, hf, hg⟩ := h x List.mem_cons_self
    rw [List.filterMap_cons_some hf, List.filterMap_cons_some hg,
      ih fun x' hx' => h x' (List.mem_cons_of_mem _ hx')]

namespace Table

/-! ## The maps of a table turned round -/

/-- What turning a table round makes of a member: its new key and the name it had. -/
def reversal (t : Table) (kind : MemberKind) (p : Text × Text) : Option (Text × Text) :=
  (kind.read p.1).toOption.map fun k => ((t.targetMember k p.2).format, k.name)

def reversals (t : Table) (kind : MemberKind) : List (Text × Text) :=
  (kind.names t).toList.filterMap (t.reversal kind)

/-- No two members of the kind end up under one key. -/
def DistinctReversals (t : Table) (kind : MemberKind) : Prop :=
  ((t.reversals kind).map Prod.fst).Nodup

theorem reversal_of_read {t : Table} {kind : MemberKind} {key : Text} {k : MemberKey}
    (h : kind.read key = .ok k) (target : Text) :
    t.reversal kind (key, target) = some ((t.targetMember k target).format, k.name) := by
  show (kind.read key).toOption.map _ = _
  rw [h]
  rfl

section Maps

variable (t : Table)

theorem addReversedField_keeps {γ : Type} (f : Table → γ)
    (h : ∀ r key target, f (addField r key target) = f r) (r : Table) (p : Text × Text) :
    f (t.addReversedField r p) = f r := by
  unfold addReversedField
  split
  · exact h r _ _
  · rfl

theorem addReversedMethod_keeps {γ : Type} (f : Table → γ)
    (h : ∀ r key target, f (addMethod r key target) = f r) (r : Table) (p : Text × Text) :
    f (t.addReversedMethod r p) = f r := by
  unfold addReversedMethod
  split
  · exact h r _ _
  · rfl

/-- What the entries do not touch is made by the four loops over the maps. -/
theorem reverse_eq {γ : Type} (f : Table → γ) (h : ∀ r e, f (addEntry r e) = f r) :
    f t.reverse = f (t.methods.toList.foldl t.addReversedMethod
      (t.fields.toList.foldl t.addReversedField
        (t.classes.toList.foldl (fun r p => r.addClass p.2 p.1 .null)
          (t.packages.toList.foldl (fun r p => r.addPackage p.2 p.1) empty)))) :=
  foldl_keeps f (fun r (e : Entry) => h r e.reversed) t.entries.values _

theorem classLoop_keeps {γ : Type} (f : Table → γ)
    (h : ∀ r source target c, f (addClass r source target c) = f r) (l : List (Text × Text))
    (r : Table) : f (l.foldl (fun r p => r.addClass p.2 p.1 .null) r) = f r :=
  foldl_keeps (g := fun r p => addClass r p.2 p.1 .null) f (fun r _ => h r _ _ _) l r

theorem packageLoop_keeps {γ : Type} (f : Table → γ)
    (h : ∀ r source target, f (addPackage r source target) = f r) (l : List (Text × Text))
    (r : Table) : f (l.foldl (fun r p => r.addPackage p.2 p.1) r) = f r :=
  foldl_keeps (g := fun r p => addPackage r p.2 p.1) f (fun r _ => h r _ _) l r

theorem reverse_packages :
    t.reverse.packages = .ofList (t.packages.toList.map fun p =>
      (Package.canonical p.2, Package.canonical p.1)) := by
  rw [reverse_eq t Table.packages fun _ _ => rfl,
    foldl_keeps Table.packages (t.addReversedMethod_keeps _ fun _ _ _ => rfl),
    foldl_keeps Table.packages (t.addReversedField_keeps _ fun _ _ _ => rfl),
    classLoop_keeps Table.packages fun _ _ _ _ => rfl,
    foldl_insertOne Table.packages (fun p =>
      some (Package.canonical p.2, Package.canonical p.1)) fun _ _ _ => rfl,
    List.filterMap_eq_map']
  rfl

theorem reverse_classes :
    t.reverse.classes = .ofList (t.classes.toList.map fun p => (p.2, p.1)) := by
  rw [reverse_eq t Table.classes fun _ _ => rfl,
    foldl_keeps Table.classes (t.addReversedMethod_keeps _ fun _ _ _ => rfl),
    foldl_keeps Table.classes (t.addReversedField_keeps _ fun _ _ _ => rfl),
    foldl_insertOne Table.classes (fun p => some (p.2, p.1)) fun _ _ _ => rfl,
    packageLoop_keeps Table.classes fun _ _ _ => rfl, List.filterMap_eq_map']
  rfl

theorem reverse_names (kind : MemberKind) :
    kind.names t.reverse = .ofList (t.reversals kind) := by
  cases kind with
  | field =>
    have hstep : ∀ r p, (t.addReversedField r p).fields =
        r.fields.insertAll (t.reversal .field p).toList := by
      intro r p
      show _ = r.fields.insertAll ((MemberKey.parse p.1).toOption.map _).toList
      unfold addReversedField
      cases MemberKey.parse p.1 <;> rfl
    show t.reverse.fields = _
    rw [reverse_eq t Table.fields fun _ _ => rfl,
      foldl_keeps Table.fields (t.addReversedMethod_keeps _ fun _ _ _ => rfl),
      foldl_insertOne Table.fields _ fun r p _ => hstep r p, classLoop_keeps Table.fields fun _ _ _ _ => rfl,
      packageLoop_keeps Table.fields fun _ _ _ => rfl]
    rfl
  | method =>
    have hstep : ∀ r p, (t.addReversedMethod r p).methods =
        r.methods.insertAll (t.reversal .method p).toList := by
      intro r p
      show _ = r.methods.insertAll ((MemberKey.parseMethod p.1).toOption.map _).toList
      unfold addReversedMethod
      cases MemberKey.parseMethod p.1 <;> rfl
    show t.reverse.methods = _
    rw [reverse_eq t Table.methods fun _ _ => rfl, foldl_insertOne Table.methods _ fun r p _ => hstep r p,
      foldl_keeps Table.methods (t.addReversedField_keeps _ fun _ _ _ => rfl),
      classLoop_keeps Table.methods fun _ _ _ _ => rfl,
      packageLoop_keeps Table.methods fun _ _ _ => rfl]
    rfl

/-- Exclusions are about the names before the rename and are dropped. -/
theorem reverse_excluded : t.reverse.excluded = [] := by
  rw [reverse_eq t Table.excluded fun _ _ => rfl,
    foldl_keeps Table.excluded (t.addReversedMethod_keeps _ fun _ _ _ => rfl),
    foldl_keeps Table.excluded (t.addReversedField_keeps _ fun _ _ _ => rfl),
    classLoop_keeps Table.excluded fun _ _ _ _ => rfl,
    packageLoop_keeps Table.excluded fun _ _ _ => rfl]
  rfl

end Maps

/-! ## Classes and packages -/

theorem map_fst_swap (l : List (Text × Text)) :
    (l.map fun p => (p.2, p.1)).map Prod.fst = l.map Prod.snd := by
  rw [List.map_map]
  rfl

theorem toList_reverse_classes {t : Table} (h : t.classes.values.Nodup) :
    t.reverse.classes.toList = t.classes.toList.map fun p => (p.2, p.1) := by
  rw [reverse_classes]
  apply OrderedMap.toList_ofList
  rw [map_fst_swap]
  exact h

theorem get?_reverse_classes {t : Table} (h : t.classes.values.Nodup) {source target : Text} :
    t.reverse.classes.get? target = some source ↔ t.classes.get? source = some target := by
  rw [OrderedMap.get?_eq_some_iff, OrderedMap.get?_eq_some_iff, toList_reverse_classes h]
  constructor
  · intro hmem
    obtain ⟨p, hp, hswap⟩ := List.mem_map.1 hmem
    cases hswap
    exact hp
  · exact fun hmem => List.mem_map.2 ⟨(source, target), hmem, rfl⟩

theorem reverse_reverse_classes {t : Table} (h : t.classes.values.Nodup) :
    t.reverse.reverse.classes = t.classes := by
  rw [reverse_classes, toList_reverse_classes h, List.map_map]
  exact (congrArg OrderedMap.ofList (List.map_id _)).trans (OrderedMap.ofList_toList _)

theorem reverse_packages_of_canonical {t : Table} (hcanonical : t.CanonicalPackages) :
    t.reverse.packages = .ofList (t.packages.toList.map fun p => (p.2, p.1)) := by
  have hpairs : t.packages.toList.map (fun p => (Package.canonical p.2, Package.canonical p.1)) =
      t.packages.toList.map fun p => (p.2, p.1) := by
    apply List.map_congr_left
    intro p hp
    rw [hcanonical p.2 (List.mem_append_right _ (List.mem_map_of_mem hp)),
      hcanonical p.1 (List.mem_append_left _ (List.mem_map_of_mem hp))]
  rw [reverse_packages, hpairs]

theorem CanonicalPackages.reverse {t : Table} (h : t.CanonicalPackages) :
    t.reverse.CanonicalPackages := by
  rw [canonicalPackages_iff, reverse_packages_of_canonical h]
  intro target source hget
  obtain ⟨p, hp, hswap⟩ := List.mem_map.1 (OrderedMap.mem_of_get?_ofList hget)
  cases hswap
  exact (canonicalPackages_iff.1 h p.1 p.2 (OrderedMap.get?_eq_some_iff.2 hp)).symm

theorem toList_reverse_packages {t : Table} (hcanonical : t.CanonicalPackages)
    (h : t.packages.values.Nodup) :
    t.reverse.packages.toList = t.packages.toList.map fun p => (p.2, p.1) := by
  rw [reverse_packages_of_canonical hcanonical]
  apply OrderedMap.toList_ofList
  rw [map_fst_swap]
  exact h

theorem reverse_reverse_packages {t : Table} (hcanonical : t.CanonicalPackages)
    (h : t.packages.values.Nodup) : t.reverse.reverse.packages = t.packages := by
  rw [reverse_packages_of_canonical hcanonical.reverse, toList_reverse_packages hcanonical h,
    List.map_map]
  exact (congrArg OrderedMap.ofList (List.map_id _)).trans (OrderedMap.ofList_toList _)

/-! ## Members -/

/-- What the members of one kind need in order to be found again. -/
structure ReversibleMembers (t : Table) (kind : MemberKind) : Prop where
  /-- The key can be read, its owner has a rename of its own, and a class in its descriptor that has
  none is not taken for the new name of another. -/
  keys : ∀ key ∈ (kind.names t).keys, ∃ k, kind.read key = .ok k ∧ k.owner ∈ t.classes.keys ∧
    ∀ d ∈ k.descriptor, ∀ c ∈ Descriptor.classNames d,
      c ∈ t.classes.keys ∨ c ∉ t.classes.values
  targets : ∀ target ∈ (kind.names t).values, target ≠ [] ∧ ' ' ∉ target ∧ '/' ∉ target
  distinct : t.DistinctReversals kind

/-- What a table needs so that turning it round loses nothing. -/
structure Reversible (t : Table) : Prop where
  classes : t.classes.values.Nodup
  packages : t.packages.values.Nodup
  canonical : t.CanonicalPackages
  targets : ∀ target ∈ t.classes.values, target ≠ [] ∧ ' ' ∉ target ∧ ';' ∉ target
  members : ∀ kind, t.ReversibleMembers kind

section Members

variable {t : Table}

/-- The classes of a descriptor are renamed there and back. -/
theorem renameDescriptor_reverse (h : t.classes.values.Nodup)
    (hnames : ∀ target ∈ t.classes.values, ';' ∉ target) {d : Text}
    (hd : ∀ c ∈ Descriptor.classNames d, c ∈ t.classes.keys ∨ c ∉ t.classes.values) :
    t.reverse.renameDescriptor (t.renameDescriptor d) = d := by
  have hrename : ∀ {c target : Text}, t.classes.get? c = some target →
      t.renameClass c = target := by
    intro c target hget
    rw [renameClass, OrderedMap.getD, hget, Option.getD_some]
  have hkeep : ∀ {c : Text}, c ∉ t.classes.keys → t.renameClass c = c := by
    intro c hc
    rw [renameClass, OrderedMap.getD, OrderedMap.get?_eq_none_iff.2 hc, Option.getD_none]
  have hsemi : ∀ c ∈ Descriptor.classNames d, ';' ∉ t.renameClass c := by
    intro c hc
    cases hget : t.classes.get? c with
    | some target =>
      rw [hrename hget]
      exact hnames target (OrderedMap.mem_values_of_get? hget)
    | none =>
      rw [hkeep (OrderedMap.get?_eq_none_iff.1 hget)]
      exact Descriptor.notMem_of_mem_classNames hc
  unfold renameDescriptor
  rw [Descriptor.rename_rename hsemi]
  apply Descriptor.rename_eq_self
  intro c hc
  cases hget : t.classes.get? c with
  | some target =>
    rw [hrename hget, renameClass, OrderedMap.getD, (get?_reverse_classes h).2 hget,
      Option.getD_some]
  | none =>
    -- `c` is no new name, so nothing is turned round into it
    have hc' := OrderedMap.get?_eq_none_iff.1 hget
    have hnone : t.reverse.classes.get? c = none := by
      cases hback : t.reverse.classes.get? c with
      | none => rfl
      | some source =>
        have hvalue := OrderedMap.mem_values_of_get? ((get?_reverse_classes h).1 hback)
        exact absurd hvalue ((hd c hc).resolve_left hc')
    rw [hkeep hc', renameClass, OrderedMap.getD, hnone, Option.getD_none]

/-- A member in the target naming is led back by the table turned round. -/
theorem targetMember_reverse (h : t.classes.values.Nodup)
    (hnames : ∀ target ∈ t.classes.values, ';' ∉ target) {k : MemberKey}
    (howner : k.owner ∈ t.classes.keys)
    (hk : ∀ d ∈ k.descriptor, ∀ c ∈ Descriptor.classNames d,
      c ∈ t.classes.keys ∨ c ∉ t.classes.values) (target : Text) :
    t.reverse.targetMember (t.targetMember k target) k.name = k := by
  obtain ⟨owner, name, descriptor⟩ := k
  obtain ⟨mid, hmid⟩ := Option.isSome_iff_exists.1 (OrderedMap.mem_keys_iff.1 howner)
  have howner' : t.reverse.mapNested (t.mapNested owner) = owner := by
    have hthere : t.mapNested owner = mid := resolveNested_of_find hmid
    rw [hthere]
    exact resolveNested_of_find ((get?_reverse_classes h).2 hmid)
  have hdescriptor : (descriptor.map t.renameDescriptor).map t.reverse.renameDescriptor =
      descriptor := by
    cases descriptor with
    | none => rfl
    | some d => exact congrArg some (renameDescriptor_reverse h hnames (hk d rfl))
  show MemberKey.mk (t.reverse.mapNested (t.mapNested owner)) name _ = _
  rw [howner']
  exact congrArg (MemberKey.mk owner name) hdescriptor

/-- The print of a member in the target naming can be read. -/
theorem isReadable_targetMember
    (hnames : ∀ target ∈ t.classes.values, target ≠ [] ∧ ' ' ∉ target) {k : MemberKey}
    (howner : k.owner ∈ t.classes.keys) {target : Text}
    (htarget : target ≠ [] ∧ ' ' ∉ target ∧ '/' ∉ target) :
    (t.targetMember k target).IsReadable := by
  obtain ⟨mid, hmid⟩ := Option.isSome_iff_exists.1 (OrderedMap.mem_keys_iff.1 howner)
  have hthere : (t.targetMember k target).owner = mid := resolveNested_of_find hmid
  have hname := hnames mid (OrderedMap.mem_values_of_get? hmid)
  refine ⟨?_, ?_, htarget.1, htarget.2⟩
  · rw [hthere]
    exact hname.1
  · rw [hthere]
    exact hname.2

theorem described_targetMember {kind : MemberKind} {key : Text} {k : MemberKey}
    (h : kind.read key = .ok k) (target : Text) : kind.Described (t.targetMember k target) := by
  cases kind with
  | field => exact trivial
  | method =>
    obtain ⟨-, d, hd, hne⟩ := MemberKey.parseMethod_eq_ok_iff.1 h
    refine ⟨t.renameDescriptor d, ?_, Descriptor.rename_ne_nil _ hne⟩
    show k.descriptor.map _ = _
    rw [hd]
    rfl

/-- **Members turned round twice.** The second time reads what the first time wrote. -/
theorem reverse_reverse_names (h : t.Reversible) (kind : MemberKind) :
    kind.names t.reverse.reverse = kind.names t := by
  have hmembers := h.members kind
  have hlist : (kind.names t.reverse).toList = t.reversals kind := by
    rw [reverse_names]
    exact OrderedMap.toList_ofList hmembers.distinct
  have hback : t.reverse.reversals kind = (kind.names t).toList := by
    unfold reversals at hlist ⊢
    rw [hlist]
    -- pair by pair: what is written for a member is read, led back and printed as it was
    apply filterMap_filterMap_cancel
    rintro ⟨key, target⟩ hp
    obtain ⟨k, hk, howner, hdescriptor⟩ := hmembers.keys key (List.mem_map_of_mem hp)
    have htarget := hmembers.targets target (List.mem_map_of_mem hp)
    have hreadable := isReadable_targetMember
      (fun c hc => ⟨(h.targets c hc).1, (h.targets c hc).2.1⟩) howner htarget
    have hread := MemberKind.read_format hreadable (described_targetMember hk target)
    refine ⟨_, reversal_of_read hk target, ?_⟩
    rw [reversal_of_read hread, targetMember_reverse h.classes
      (fun c hc => (h.targets c hc).2.2) howner hdescriptor, MemberKind.format_of_read hk]
    rfl
  rw [reverse_names, hback, OrderedMap.ofList_toList]

end Members

/-- **Turning a table round twice gives back its maps**, with their pairs in the order they had. -/
theorem reverse_reverse {t : Table} (h : t.Reversible) :
    t.reverse.reverse.packages = t.packages ∧ t.reverse.reverse.classes = t.classes ∧
      t.reverse.reverse.fields = t.fields ∧ t.reverse.reverse.methods = t.methods :=
  ⟨reverse_reverse_packages h.canonical h.packages, reverse_reverse_classes h.classes,
    reverse_reverse_names h .field, reverse_reverse_names h .method⟩

/-- Two classes that swap their names, and a method whose descriptor names both and a stranger. -/
theorem reverse_reverse_swapped :
    let t := ((((empty.addPackage "p".toList "q".toList).addClass "a/X".toList "a/Y".toList
      .null).addClass "a/Y".toList "a/X".toList .null).addField "a/X/f La/Y;".toList
      "g".toList).addMethod "a/Y/m (La/X;Lz/Z;)La/Y;".toList "n".toList
    t.Reversible ∧ t.reverse.methods.get? "a/X/n (La/Y;Lz/Z;)La/X;".toList = some "m".toList ∧
      t.reverse.reverse.methods = t.methods := by
  intro t
  have hreversible : t.Reversible := by
    refine ⟨by decide, by decide, by unfold CanonicalPackages; decide +kernel, by decide, ?_⟩
    rintro (_ | _)
    · refine ⟨?_, by decide, by unfold DistinctReversals; decide +kernel⟩
      intro key hkey
      obtain rfl := List.mem_singleton.1 hkey
      exact ⟨⟨"a/X".toList, "f".toList, some "La/Y;".toList⟩, by rfl, by decide, by decide⟩
    · refine ⟨?_, by decide, by unfold DistinctReversals; decide +kernel⟩
      intro key hkey
      obtain rfl := List.mem_singleton.1 hkey
      exact ⟨⟨"a/Y".toList, "m".toList, some "(La/X;Lz/Z;)La/Y;".toList⟩, by rfl, by decide,
        by decide⟩
  exact ⟨hreversible, by decide +kernel, (reverse_reverse hreversible).2.2.2⟩

end Table

end Renaming
