import Renaming.Proofs.Mapping.Between
import Renaming.Proofs.Mapping.Renames

/-!
# `Proofs/Mapping/Direct` — the table made directly

A table of two tiers is that of its renames, and for a missing name a rename falls back on another
one. Where no name is missing (`Complete`), there is one rename for each row and none of the
fallbacks is taken (`renamesBetween_eq`). In a regular mapping no two of these renames have one
source or one target either, so none is overwritten, and the table is `Between` its tiers.
-/

set_option autoImplicit false

namespace Renaming

namespace Mapping

/-- The entries of the members of a class, in the order in which they are written. -/
def memberEntries (m : Mapping) (i j : Nat) (c : ClassRow) : List Entry :=
  (c.fields.map fun row => m.memberEntry .field i j (c, row)) ++
    c.methods.map fun row => m.memberEntry .method i j (c, row)

/-- All entries, in the order in which they are written. -/
def entriesInOrder (m : Mapping) (i j : Nat) : List Entry :=
  m.classes.values.map (classEntry i j) ++ m.classes.values.flatMap (m.memberEntries i j)

theorem mem_entriesInOrder {m : Mapping} {i j : Nat} {e : Entry} :
    e ∈ m.entriesInOrder i j ↔ m.IsEntry i j e := by
  unfold entriesInOrder
  rw [List.mem_append, List.mem_map, List.mem_flatMap]
  constructor
  · rintro (⟨c, hc, rfl⟩ | ⟨c, hc, he⟩)
    · exact .ofClass hc
    · rcases List.mem_append.1 he with he | he
      · obtain ⟨row, hrow, rfl⟩ := List.mem_map.1 he
        exact .ofMember (mem_members.2 ⟨hc, hrow⟩)
      · obtain ⟨row, hrow, rfl⟩ := List.mem_map.1 he
        exact .ofMember (mem_members.2 ⟨hc, hrow⟩)
  · intro he
    cases he with
    | @ofClass c hc => exact .inl ⟨c, hc, rfl⟩
    | @ofMember kind p hp =>
      obtain ⟨hc, hrow⟩ := mem_members.1 hp
      refine .inr ⟨p.1, hc, List.mem_append.2 ?_⟩
      cases kind with
      | field => exact .inl (List.mem_map.2 ⟨p.2, hrow, rfl⟩)
      | method => exact .inr (List.mem_map.2 ⟨p.2, hrow, rfl⟩)

theorem getD_ofList_names (m : Mapping) (i : Nat) (name : Text) :
    (OrderedMap.ofList (m.classes.toList.map fun p => (p.1, nameIn p.2.names i))).getD name name =
      m.inTier i name :=
  congrArg (Option.getD · name)
    (OrderedMap.get?_ofList_map m.classes (fun c => nameIn c.names i) name)

namespace Complete

variable {m : Mapping} (h : m.Complete) {i j : Nat} (hi : i < m.namespaces.length)
  (hj : j < m.namespaces.length)

include h hi hj

/-! ## The names of the classes -/

theorem classRenames_eq :
    m.classRenames i j = m.classes.toList.map fun p =>
      (p.1, nameIn p.2.names i, nameIn p.2.names j, p.2.comment) := by
  unfold classRenames
  rw [← List.filterMap_eq_map']
  apply List.filterMap_congr
  intro p hp
  have hc : p.2 ∈ m.classes.values := List.mem_map_of_mem hp
  dsimp only
  rw [h.declared p.2 hc, if_pos rfl, h.nameAt_class hi hc, h.nameAt_class hj hc]
  rfl

theorem getD_toSource (name : Text) :
    (m.tierNames i j).toSource.getD name name = m.inTier i name := by
  have hlist : (m.classRenames i j).map (fun r => (r.1, r.2.1)) =
      m.classes.toList.map fun p => (p.1, nameIn p.2.names i) := by
    rw [h.classRenames_eq hi hj, List.map_map]
    rfl
  show (OrderedMap.ofList _).getD name name = _
  rw [hlist, getD_ofList_names]

theorem getD_toTarget (name : Text) :
    (m.tierNames i j).toTarget.getD name name = m.inTier j name := by
  have hlist : (m.classRenames i j).map (fun r => (r.1, r.2.2.1)) =
      m.classes.toList.map fun p => (p.1, nameIn p.2.names j) := by
    rw [h.classRenames_eq hi hj, List.map_map]
    rfl
  show (OrderedMap.ofList _).getD name name = _
  rw [hlist, getD_ofList_names]

/-! ## One row -/

section Row

variable {kind : MemberKind} {p : ClassRow × MemberRow} (hp : p ∈ m.members kind)

include hp

theorem sourceKey?_eq :
    sourceKey? (m.tierNames i j) i (nameIn p.1.names i) p.2 = some (m.keyIn i p) := by
  have hnames : (fun c => (m.tierNames i j).toSource.getD c c) = m.inTier i :=
    funext (h.getD_toSource hi hj)
  rw [sourceKey?, hnames, h.nameAt_member hi hp]
  rfl

theorem targetKey_eq :
    targetKey (m.tierNames i j) i j (nameIn p.1.names j) p.2 = m.keyIn j p := by
  have hnames : (fun c => (m.tierNames i j).toTarget.getD c c) = m.inTier j :=
    funext (h.getD_toTarget hi hj)
  rw [targetKey, hnames, h.nameAt_member hj hp]
  rfl

end Row

theorem memberRename?_eq {kind : MemberKind} {p : ClassRow × MemberRow} (hp : p ∈ m.members kind) :
    memberRename? (m.tierNames i j) i j kind (nameIn p.1.names i) (nameIn p.1.names j) p.2 =
      some (m.memberEntry kind i j p) := by
  have hdescribed : ¬ (kind = .method ∧ (m.keyIn i p).descriptor = none) := by
    rintro ⟨rfl, hnone⟩
    exact h.described p hp (Option.map_eq_none_iff.1 hnone)
  rw [memberRename?, h.sourceKey?_eq hi hj hp, h.targetKey_eq hi hj hp]
  exact if_neg hdescribed

/-- With no name missing, the members change along with their class. -/
theorem memberRenames_eq {p : Text × ClassRow} (hp : p ∈ m.classes.toList) :
    memberRenames (m.tierNames i j) i j p = m.memberEntries i j p.2 := by
  have hc : p.2 ∈ m.classes.values := List.mem_map_of_mem hp
  have hrows (kind : MemberKind) :
      (kind.rows p.2).filterMap (memberRename? (m.tierNames i j) i j kind (nameIn p.2.names i)
          (nameIn p.2.names j)) =
        (kind.rows p.2).map fun row => m.memberEntry kind i j (p.2, row) := by
    rw [← List.filterMap_eq_map']
    apply List.filterMap_congr
    intro row hrow
    have hp : (p.2, row) ∈ m.members kind := mem_members.2 ⟨hc, hrow⟩
    exact h.memberRename?_eq hi hj hp
  rw [memberRenames, h.nameAt_class hi hc, h.nameAt_class hj hc]
  exact congrArg₂ (· ++ ·) (hrows .field) (hrows .method)

/-- There is one rename for each row. -/
theorem renamesBetween_eq : m.renamesBetween i j = m.entriesInOrder i j := by
  have hmembers : m.classes.toList.flatMap (memberRenames (m.tierNames i j) i j) =
      m.classes.toList.flatMap fun p => m.memberEntries i j p.2 :=
    List.flatMap_congr fun p hp => h.memberRenames_eq hi hj hp
  rw [renamesBetween, hmembers, h.classRenames_eq hi hj, entriesInOrder, OrderedMap.values,
    List.map_map, List.map_map, List.flatMap_map]
  rfl

/-! ## The table -/

theorem tableBetween_eq_ofRenames :
    m.tableBetween i j = .ofRenames .empty (m.entriesInOrder i j) := by
  rw [tableBetween_eq, h.renamesBetween_eq hi hj, packageRenames, h.packages]
  rfl

end Complete

namespace Regular

variable {m : Mapping} (h : m.Regular) {i j : Nat} (hi : i < m.namespaces.length)
  (hj : j < m.namespaces.length)

include h hi hj

/-- No rename overwrites the name that another one gives. -/
theorem get?_names_tableBetween (kind : SymbolKind) (key target : Text) :
    (kind.names (m.tableBetween i j)).get? key = some target ↔
      ∃ e, m.IsEntry i j e ∧ e.kind = kind ∧ e.sourceKey = key ∧ e.targetName = target := by
  have hmem (key target : Text) :
      (key, target) ∈ (m.entriesInOrder i j).filterMap (Entry.nameFor kind) ↔
        ∃ e, m.IsEntry i j e ∧ e.kind = kind ∧ e.sourceKey = key ∧ e.targetName = target := by
    rw [List.mem_filterMap]
    simp only [mem_entriesInOrder, Entry.nameFor_eq_some_iff]
  rw [h.complete.tableBetween_eq_ofRenames hi hj, Table.ofRenames_names,
    OrderedMap.get?_ofList_iff, hmem]
  rintro ⟨key, target⟩ hp ⟨key', target'⟩ hq hkey
  obtain ⟨e, he, hkind, hsource, rfl⟩ := (hmem key target).1 hp
  obtain ⟨e', he', hkind', hsource', rfl⟩ := (hmem key' target').1 hq
  rw [h.isEntry_own_source_inj hi he he' (hkind.trans hkind'.symm)
    (hsource.trans (hkey.trans hsource'.symm))]

/-- **The table made directly says what the rows say.** -/
theorem between_tableBetween : Between m i j (m.tableBetween i j) where
  packages package := by
    rw [h.complete.tableBetween_eq_ofRenames hi hj, Table.ofRenames_packages]
    rfl
  classes source target := by
    refine (h.get?_names_tableBetween hi hj .ofClass source target).trans ?_
    constructor
    · rintro ⟨e, he, hkind, rfl, rfl⟩
      cases he with
      | @ofClass c hc => exact ⟨c, hc, rfl, rfl⟩
      | @ofMember kind p hp => cases kind <;> cases hkind
    · rintro ⟨c, hc, rfl, rfl⟩
      exact ⟨_, .ofClass hc, rfl, rfl, rfl⟩
  names kind key target := by
    rw [← kind.names_symbol]
    refine (h.get?_names_tableBetween hi hj kind.symbol key target).trans ?_
    constructor
    · rintro ⟨e, he, hkind, rfl, rfl⟩
      cases he with
      | ofClass hc => cases kind <;> cases hkind
      | @ofMember kind' p hp =>
        obtain rfl : kind' = kind := by
          cases kind <;> cases kind' <;> first | rfl | cases hkind
        exact ⟨p, hp, (h.keyText_keyIn hp).symm, rfl⟩
    · rintro ⟨p, hp, rfl, rfl⟩
      exact ⟨_, .ofMember hp, rfl, h.keyText_keyIn hp, rfl⟩
  entries k e := by
    rw [h.complete.tableBetween_eq_ofRenames hi hj, Table.ofRenames_entries]
    exact h.get?_ofList_keyed_iff hj fun e => mem_entriesInOrder

end Regular

end Mapping

end Renaming
