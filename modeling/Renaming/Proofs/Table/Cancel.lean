import Renaming.Proofs.Table.Package
import Renaming.Proofs.Table.PassOn
import Renaming.Proofs.Table.Undo

/-!
# `Proofs/Table/Cancel` — a step and its own way back

Composed with the table turned round, a table leads every symbol of its own back to where it was.
Two derivations have to meet for this. The composition asks the second table for a member as the
first one passes it on, and the table turned round has it under the key that was made when it was
turned. For a method both make the same key. For a field the composition adds the signature that
the entry of the field records, while the key has none; a table turned round has no field with a
signature as long as no name has a blank in it, so it is the key without one that is found.
-/

set_option autoImplicit false

namespace Renaming

namespace Table

/-- What a table needs so that the way back meets each of its symbols. -/
structure Cancellable (t : Table) : Prop where
  excluded : t.excluded = []
  classes : t.classes.values.Nodup
  bare : ∀ key ∈ t.fields.keys, ∀ k, MemberKey.parse key = .ok k → k.descriptor = none
  /-- No new name of a class or a field has a blank, the mark of a descriptor. -/
  unbroken : ∀ target ∈ t.classes.values ++ t.fields.values, ' ' ∉ target
  members : ∀ kind, t.DistinctReversals kind

section Members

variable {t : Table}

/-- The table turned round has each member under its key in the target naming. -/
theorem get?_reverse_targetMember {kind : MemberKind} (h : t.DistinctReversals kind)
    {key target : Text} {k : MemberKey} (hget : (kind.names t).get? key = some target)
    (hread : kind.read key = .ok k) :
    (kind.names t.reverse).get? (t.targetMember k target).format = some k.name :=
  (get?_reverse_names h _ _).2 ⟨key, target, k, hget, hread, rfl, rfl⟩

/-- Fields without descriptors have none when they are turned round. -/
theorem Cancellable.bareFields_reverse (h : t.Cancellable) : t.reverse.BareFields := by
  apply bareFields_of_notMem
  intro reversed hkey
  obtain ⟨source, hsource⟩ := Option.isSome_iff_exists.1 (OrderedMap.mem_keys_iff.1 hkey)
  have hmem : (reversed, source) ∈ t.reversals .field := by
    apply OrderedMap.mem_of_get?_ofList
    rw [← reverse_names]
    exact hsource
  obtain ⟨⟨key, target⟩, hp, hreversal⟩ := List.mem_filterMap.1 hmem
  obtain ⟨k, hk, hpair⟩ := Option.map_eq_some_iff.1 hreversal
  have hparse : MemberKey.parse key = .ok k := by
    change (MemberKey.parse key).toOption = some k at hk
    cases hr : MemberKey.parse key with
    | error e => rw [hr] at hk; cases hk
    | ok k' => rw [hr] at hk; cases hk; rfl
  have hformat : reversed = bareKey (t.mapNested k.owner) target := by
    rw [← (Prod.mk.inj hpair).1, targetMember, h.bare key (List.mem_map_of_mem hp) k hparse]
    rfl
  have howner : ' ' ∉ k.owner :=
    fun hblank => MemberKey.blank_notMem_of_parse hparse (List.mem_append_left _ hblank)
  have howner' : ∀ c ∈ t.mapNested k.owner, c ≠ ' ' := by
    refine mapNested_forall (fun name hname c hc => ?_) fun c hc => ?_
    · rintro rfl
      exact h.unbroken name (List.mem_append_left _ hname) hc
    · rintro rfl
      exact howner hc
  rw [hformat]
  exact MemberKey.blank_notMem_bareKey (fun hblank => howner' _ hblank rfl)
    (h.unbroken target (List.mem_append_right _ (List.mem_map_of_mem hp)))

/-- **The two derivations meet**: what the table passes on is what its way back knows. -/
theorem Cancellable.newName_passOn (h : t.Cancellable) {kind : MemberKind} {key target : Text}
    {k : MemberKey} (hget : (kind.names t).get? key = some target)
    (hread : kind.read key = .ok k) :
    t.reverse.newName kind (t.passOn kind k target) = k.name := by
  have hback := get?_reverse_targetMember (h.members kind) hget hread
  cases kind with
  | field =>
    have hdescriptor : k.descriptor = none :=
      h.bare key (OrderedMap.mem_keys_iff.2 (Option.isSome_iff_exists.2 ⟨target, hget⟩)) k hread
    have hkey : (t.targetMember k target).format = bareKey (t.mapNested k.owner) target := by
      rw [targetMember, hdescriptor]
      rfl
    rw [newName_field_of_bareFields h.bareFields_reverse]
    show t.reverse.fields.getD (bareKey (t.mapNested k.owner) target) target = k.name
    rw [← hkey, OrderedMap.getD]
    exact congrArg (Option.getD · target) hback
  | method => exact newName_of_get? hback

theorem Cancellable.get?_compose_reverse_names (h : t.Cancellable) {kind : MemberKind} {key : Text}
    (hkey : key ∈ (kind.names t).keys) {k : MemberKey} (hread : kind.read key = .ok k) :
    (kind.names (t.compose t.reverse)).get? key = some k.name := by
  obtain ⟨target, hget⟩ := Option.isSome_iff_exists.1 (OrderedMap.mem_keys_iff.1 hkey)
  rw [get?_compose_names_of_get? hget hread, h.newName_passOn hget hread]

theorem Cancellable.get?_compose_reverse_classes (h : t.Cancellable) {name : Text}
    (hname : name ∈ t.classes.keys) : (t.compose t.reverse).classes.get? name = some name := by
  obtain ⟨target, hget⟩ := Option.isSome_iff_exists.1 (OrderedMap.mem_keys_iff.1 hname)
  have hback : t.reverse.mapNested target = name :=
    resolveNested_of_find ((get?_reverse_classes h.classes).2 hget)
  rw [get?_compose_classes, hget, Option.map_some, hback]

end Members

/-! ## Packages -/

section Packages

variable {t : Table} (hcanonical : t.CanonicalPackages) (h : t.packages.values.Nodup)

include hcanonical h

theorem get?_reverse_packages {source target : Text} :
    t.reverse.packages.get? target = some source ↔ t.packages.get? source = some target := by
  rw [OrderedMap.get?_eq_some_iff, OrderedMap.get?_eq_some_iff,
    toList_reverse_packages hcanonical h]
  constructor
  · intro hmem
    obtain ⟨p, hp, hswap⟩ := List.mem_map.1 hmem
    cases hswap
    exact hp
  · exact fun hmem => List.mem_map.2 ⟨(source, target), hmem, rfl⟩

/-- Where no two packages are moved to one place, no package is moved in the end. -/
theorem eq_of_get?_compose_reverse_packages {p q : Text}
    (hget : (t.compose t.reverse).packages.get? p = some q) : q = p := by
  rw [get?_compose_packages hcanonical hcanonical.reverse] at hget
  cases hp : t.packages.get? p with
  | some target =>
    rw [hp, Option.map_some, Option.some_or, OrderedMap.getD,
      (get?_reverse_packages hcanonical h).2 hp, Option.getD_some] at hget
    exact (Option.some.inj hget).symm
  | none =>
    -- what only the way back knows is a new package of the first step
    rw [hp, Option.map_none, Option.none_or] at hget
    split at hget
    · cases hget
    · rename_i hvalues
      exact absurd (OrderedMap.mem_values_of_get? ((get?_reverse_packages hcanonical h).1 hget))
        hvalues

theorem relocate_compose_reverse (name : Text) : (t.compose t.reverse).relocate name = name := by
  rcases exists_isMoved (t.compose t.reverse) name with hun | ⟨p, target, rest, hmoved⟩
  · exact relocate_of_isUnmoved hun
  · obtain rfl := eq_of_get?_compose_reverse_packages hcanonical h hmoved.own
    rw [relocate_of_isMoved hmoved, ← hmoved.split]

end Packages

/-! ## Comments -/

/-- Turning a table round keeps its comments. -/
theorem PlainComments.reverse {t : Table} (h : t.PlainComments) : t.reverse.PlainComments := by
  have hpackages : (t.packages.toList.foldl (fun r p => r.addPackage p.2 p.1)
      empty).PlainComments := by
    rw [PlainComments, packageLoop_keeps Table.entries fun _ _ _ => rfl]
    exact fun e he => absurd he List.not_mem_nil
  have hclasses : (t.classes.toList.foldl (fun r p => r.addClass p.2 p.1 .null)
      (t.packages.toList.foldl (fun r p => r.addPackage p.2 p.1) empty)).PlainComments := by
    refine List.foldlRecOn (motive := PlainComments) _ _ hpackages fun r hr p _ => ?_
    exact PlainComments.addEntry (t := { r with classes := _ }) hr ⟨none, rfl⟩
  have hmembers : (t.methods.toList.foldl t.addReversedMethod
      (t.fields.toList.foldl t.addReversedField
        (t.classes.toList.foldl (fun r p => r.addClass p.2 p.1 .null)
          (t.packages.toList.foldl (fun r p => r.addPackage p.2 p.1) empty)))).PlainComments := by
    rw [PlainComments, foldl_keeps Table.entries (t.addReversedMethod_keeps _ fun _ _ _ => rfl),
      foldl_keeps Table.entries (t.addReversedField_keeps _ fun _ _ _ => rfl)]
    exact hclasses
  refine List.foldlRecOn (motive := PlainComments) t.entries.values _ hmembers fun r hr e he => ?_
  have hcomment : e.reversed.comment = e.comment := by cases e <;> rfl
  exact hr.addEntry (hcomment ▸ h e he)

/-! ## There and back -/

/-- **A step and its own way back cancel.** Every class and every member of the table gets the name
that it had. For a class this is what the class entries say; the packages of the composition keep it
there unless two of them were moved to one place. Only comments can refuse the composition. -/
theorem compose_reverse {t : Table} (h : t.Cancellable) :
    (∀ name ∈ t.classes.keys, (t.compose t.reverse).classes.get? name = some name) ∧
      (∀ kind : MemberKind, ∀ key ∈ (kind.names t).keys, ∀ k, kind.read key = .ok k →
        (kind.names (t.compose t.reverse)).get? key = some k.name ∧
          (t.compose t.reverse).mapMember kind k = k.name) ∧
      (t.CanonicalPackages → t.packages.values.Nodup →
        ∀ name ∈ t.classes.keys, (t.compose t.reverse).mapClass name = name) ∧
      (t.PlainComments → composed t t.reverse = .ok (t.compose t.reverse)) := by
  have hexcluded : (t.compose t.reverse).excluded = [] := compose_excluded_eq_nil h.excluded _
  refine ⟨fun name => h.get?_compose_reverse_classes, ?_, ?_,
    fun hplain => composed_of_plain hplain hplain.reverse⟩
  · intro kind key hkey k hread
    have hget := h.get?_compose_reverse_names hkey hread
    refine ⟨hget, ?_⟩
    by_cases hfixed : IsFixed kind k.name
    · exact mapMember_of_isFixed hfixed _
    · exact mapMember_of_get? hexcluded hfixed hread hget
  · intro hcanonical hpackages name hname
    have hnested : (t.compose t.reverse).mapNested name = name :=
      resolveNested_of_find (h.get?_compose_reverse_classes hname)
    rw [mapClass_of_excluded_eq_nil hexcluded, hnested, if_pos rfl]
    exact relocate_compose_reverse hcanonical hpackages name

/-- Members of a nested class, of a class that is not renamed and of one that takes the old name of
another. -/
theorem compose_reverse_nested :
    let t := ((((((empty.addPackage "p".toList "q".toList).addClass "a/A".toList "b/B".toList
      .null).addClass "c/C".toList "a/A".toList .null).addField "a/A$I/f".toList
      "g".toList).addField "z/Z/f".toList "g".toList).addMethod "c/C/m (La/A;[Lc/C;)La/A$I;".toList
      "n".toList).addMethod "z/Z/m (Lz/Z;)V".toList "n".toList
    t.Cancellable ∧
      (t.compose t.reverse).classes.get? "c/C".toList = some "c/C".toList ∧
      (t.compose t.reverse).fields.get? "a/A$I/f".toList = some "f".toList ∧
      (t.compose t.reverse).fields.get? "z/Z/f".toList = some "f".toList ∧
      (t.compose t.reverse).methods.get? "c/C/m (La/A;[Lc/C;)La/A$I;".toList =
        some "m".toList := by
  intro t
  have hbare : ∀ key ∈ t.fields.keys, ∀ k, MemberKey.parse key = .ok k → k.descriptor = none := by
    have hkeys : ∀ key ∈ t.fields.keys, ' ' ∉ key := by decide
    intro key hkey k hread
    cases hd : k.descriptor with
    | none => rfl
    | some d =>
      refine absurd ?_ (hkeys key hkey)
      rw [← MemberKey.format_of_parse hread, MemberKey.format, hd]
      simp [qualifiedKey]
  have hmembers : ∀ kind, t.DistinctReversals kind := by
    unfold DistinctReversals
    rintro (_ | _) <;> decide +kernel
  have hcancel : t.Cancellable := ⟨rfl, by decide, hbare, by decide, hmembers⟩
  have hrestored := compose_reverse hcancel
  have hmember : ∀ kind : MemberKind, ∀ key ∈ (kind.names t).keys, ∀ k, kind.read key = .ok k →
      (kind.names (t.compose t.reverse)).get? key = some k.name :=
    fun kind key hkey k hread => (hrestored.2.1 kind key hkey k hread).1
  exact ⟨hcancel, hrestored.1 _ (by decide),
    hmember .field "a/A$I/f".toList (by decide) ⟨"a/A$I".toList, "f".toList, none⟩ rfl,
    hmember .field "z/Z/f".toList (by decide) ⟨"z/Z".toList, "f".toList, none⟩ rfl,
    hmember .method "c/C/m (La/A;[Lc/C;)La/A$I;".toList (by decide)
      ⟨"c/C".toList, "m".toList, some "(La/A;[Lc/C;)La/A$I;".toList⟩ rfl⟩

end Table

end Renaming
