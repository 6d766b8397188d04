import Renaming.Proofs.Mapping.Renames
import Renaming.Proofs.Mapping.Rows
import Renaming.Proofs.Symbol.Nesting
import Renaming.Proofs.Table.Follow

/-!
# `Proofs/Mapping/Follow` — a table of two tiers follows its own classes

Owners and descriptors are kept in the names of the first tier. On the way into a table they are
looked up twice, once for the source and once for the target, and each of these look-ups falls back
on something else where a tier has no name. The table itself knows nothing of the first tier. So
that its entries still say what it says about its classes, it is enough that every class has a
source name of its own (`Sourced`). Target names may be missing anywhere:

> the class then goes by the nearest class around it that has one (`NearestNamed`), and so do its
> members and the descriptors that mention it.
-/

set_option autoImplicit false

namespace Renaming

namespace Mapping

/-! ## The tiers of a table -/

/-- The mapping and the two tiers that a table is made of. Without namespaces these are the first
and the last name of each row. -/
def chosen (m : Mapping) (source target : Option Text) : Except Fault (Mapping × Nat × Nat) := do
  let (s, t) ← m.tiers source target
  if m.isTiered && m.namespaces.isEmpty then return (← m.outermost, 0, 1)
  else return (m, s, t)

theorem table_eq_chosen (m : Mapping) (source target : Option Text) :
    m.table source target =
      (fun c => c.1.tableBetween c.2.1 c.2.2) <$> m.chosen source target := by
  unfold table chosen
  cases m.tiers source target with
  | error f => rfl
  | ok tiers =>
    show (if _ then _ else _) = _ <$> (if _ then _ else _)
    split
    · cases m.outermost <;> rfl
    · rfl

/-! ## Mappings with a full source tier -/

/-- Every class has a row of its own and a name of its own in this tier. No name ends a class early,
and what is mentioned in a descriptor is either known by its first name or no class of the tier. -/
structure Sourced (m : Mapping) (s : Nat) : Prop where
  declared : ∀ c ∈ m.classes.values, c.declared = true
  named : ∀ c ∈ m.classes.values, nameAt c.names s ≠ none
  distinct : (m.classes.values.map fun c => nameAt c.names s).Nodup
  closed : ∀ c ∈ m.classes.values, ';' ∉ nameIn c.names s
  settled : ∀ kind, ∀ p ∈ m.members kind, ∀ d ∈ p.2.descriptor,
    ∀ name ∈ Descriptor.classNames d, name ∈ m.classes.keys ∨
      ∀ c ∈ m.classes.values, nameAt c.names s ≠ some name

/-- The class `a` is the nearest one around `name` that has a target name, which is `b`. -/
structure NearestNamed (m : Mapping) (s t : Nat) (name a b rest : Text) : Prop where
  split : name = a ++ rest
  encloses : Encloses a name
  own : ∃ c ∈ m.classes.values, nameAt c.names s = some a ∧ nameAt c.names t = some b
  nearest : ∀ c ∈ m.classes.values, ∀ outer, nameAt c.names s = some outer →
    Encloses outer name → a.length < outer.length → nameAt c.names t = none

/-- No class around `name` has a target name. -/
def Unnamed (m : Mapping) (s t : Nat) (name : Text) : Prop :=
  ∀ c ∈ m.classes.values, ∀ outer, nameAt c.names s = some outer → Encloses outer name →
    nameAt c.names t = none

def newName (m : Mapping) (s t : Nat) (c : ClassRow) : Text :=
  (nameAt c.names t).getD (resolveNested (m.namedClasses s t).get? (nameIn c.names s))

/-- The source and the target name of a class that has both. -/
def bothNames (s t : Nat) (c : ClassRow) : Option (Text × Text) :=
  (nameAt c.names s).bind fun source => (nameAt c.names t).map fun target => (source, target)

theorem bothNames_eq_some_iff {s t : Nat} {c : ClassRow} {p : Text × Text} :
    bothNames s t c = some p ↔ nameAt c.names s = some p.1 ∧ nameAt c.names t = some p.2 := by
  obtain ⟨source, target⟩ := p
  unfold bothNames
  cases nameAt c.names s <;> cases nameAt c.names t <;> simp

/-! ## The renames of members -/

section Members

variable {n : TierNames} {s t : Nat}

theorem memberRename?_eq_some {kind : MemberKind} {source target : Text} {row : MemberRow}
    {e : Entry} (h : memberRename? n s t kind source target row = some e) :
    ∃ k, sourceKey? n s source row = some k ∧
      e = .ofMember kind (.ofKey k) (.ofKey (targetKey n s t target row)) (.ofText? row.comment) := by
  unfold memberRename? at h
  cases hk : sourceKey? n s source row with
  | none =>
    rw [hk] at h
    cases h
  | some k =>
    rw [hk] at h
    refine ⟨k, rfl, ?_⟩
    dsimp only at h
    split at h
    · cases h
    · exact (Option.some.inj h).symm

/-- The rename of a member comes from a row of its class. -/
theorem exists_row_of_mem_memberRenames {p : Text × ClassRow} {e : Entry}
    (he : e ∈ memberRenames n s t p) : ∃ kind, ∃ row ∈ MemberKind.rows kind p.2,
      memberRename? n s t kind ((nameAt p.2.names s).getD (resolveNested n.toSource.get? p.1))
        ((nameAt p.2.names t).getD (resolveNested n.toTarget.get? p.1)) row = some e := by
  rcases List.mem_append.1 he with he | he
  · obtain ⟨row, hrow, hsome⟩ := List.mem_filterMap.1 he
    exact ⟨.field, row, hrow, hsome⟩
  · obtain ⟨row, hrow, hsome⟩ := List.mem_filterMap.1 he
    exact ⟨.method, row, hrow, hsome⟩

end Members

namespace Sourced

variable {m : Mapping} {s : Nat} (h : m.Sourced s) (t : Nat)

include h

/-! ## Classes -/

theorem nameAt_eq {c : ClassRow} (hc : c ∈ m.classes.values) :
    nameAt c.names s = some (nameIn c.names s) := nameAt_eq_some (h.named c hc)

theorem eq_of_nameAt {c c' : ClassRow} (hc : c ∈ m.classes.values) (hc' : c' ∈ m.classes.values)
    (hname : nameAt c.names s = nameAt c'.names s) : c = c' :=
  List.inj_on_of_nodup_map h.distinct hc hc' hname

theorem namedClasses_eq :
    m.namedClasses s t = .ofList (m.classes.values.filterMap (bothNames s t)) := by
  unfold namedClasses OrderedMap.ofList
  rw [List.foldl_filterMap]
  apply List.foldl_ext
  intro named c hc
  unfold bothNames
  rw [h.declared c hc]
  cases nameAt c.names s <;> cases nameAt c.names t <;> rfl

theorem get?_namedClasses {name target : Text} :
    (m.namedClasses s t).get? name = some target ↔
      ∃ c ∈ m.classes.values, nameAt c.names s = some name ∧ nameAt c.names t = some target := by
  rw [h.namedClasses_eq, OrderedMap.get?_ofList_iff, List.mem_filterMap]
  · simp only [bothNames_eq_some_iff]
  · intro p hp q hq hkey
    obtain ⟨c, hc, hboth⟩ := List.mem_filterMap.1 hp
    obtain ⟨c', hc', hboth'⟩ := List.mem_filterMap.1 hq
    rw [bothNames_eq_some_iff] at hboth hboth'
    obtain rfl : c = c' := by
      apply h.eq_of_nameAt hc hc'
      rw [hboth.1, hboth'.1, hkey]
    exact Option.some.inj (hboth.2.symm.trans hboth'.2)

/-- The named classes are those that have a target name. -/
theorem get?_namedClasses_eq_none {name : Text} :
    (m.namedClasses s t).get? name = none ↔
      ∀ c ∈ m.classes.values, nameAt c.names s = some name → nameAt c.names t = none := by
  rw [Option.eq_none_iff_forall_ne_some]
  simp only [ne_eq, h.get?_namedClasses, not_exists, not_and]
  constructor
  · intro hnone c hc hsource
    rw [Option.eq_none_iff_forall_ne_some]
    exact fun target => hnone target c hc hsource
  · intro hnone target c hc hsource htarget
    rw [hnone c hc hsource] at htarget
    cases htarget

theorem nearestNamed_or_unnamed (name : Text) :
    (∃ a b rest, m.NearestNamed s t name a b rest ∧
      resolveNested (m.namedClasses s t).get? name = b ++ rest) ∨
    m.Unnamed s t name ∧ resolveNested (m.namedClasses s t).get? name = name := by
  rcases exists_isNearest (m.namedClasses s t).get? name with hnone | ⟨a, b, rest, hnear⟩
  · refine .inr ⟨?_, resolveNested_of_forall_none hnone⟩
    intro c hc outer hsource hencloses
    exact (h.get?_namedClasses_eq_none t).1 (hnone outer hencloses) c hc hsource
  · refine .inl ⟨a, b, rest, ⟨hnear.split, hnear.encloses, ?_, ?_⟩,
      resolveNested_of_isNearest hnear⟩
    · exact (h.get?_namedClasses t).1 hnear.own
    · intro c hc outer hsource hencloses hlt
      have hnone := hnear.nearest outer hencloses hlt
      exact (h.get?_namedClasses_eq_none t).1 hnone c hc hsource

theorem classRenames_eq :
    m.classRenames s t = m.classes.toList.map fun p =>
      (p.1, nameIn p.2.names s, m.newName s t p.2, p.2.comment) := by
  unfold classRenames
  rw [← List.filterMap_eq_map']
  apply List.filterMap_congr
  intro p hp
  have hc : p.2 ∈ m.classes.values := List.mem_map_of_mem hp
  dsimp only
  rw [h.declared p.2 hc, if_pos rfl, h.nameAt_eq hc]
  rfl

theorem get?_toSource (first : Text) :
    (m.tierNames s t).toSource.get? first =
      (m.classes.get? first).map fun c => nameIn c.names s := by
  show (OrderedMap.ofList _).get? first = _
  rw [h.classRenames_eq, List.map_map]
  exact OrderedMap.get?_ofList_map m.classes (fun c => nameIn c.names s) first

theorem get?_toTarget (first : Text) :
    (m.tierNames s t).toTarget.get? first = (m.classes.get? first).map (m.newName s t) := by
  show (OrderedMap.ofList _).get? first = _
  rw [h.classRenames_eq, List.map_map]
  exact OrderedMap.get?_ofList_map m.classes (m.newName s t) first

theorem classes_tableBetween :
    (m.tableBetween s t).classes =
      .ofList (m.classes.values.map fun c => (nameIn c.names s, m.newName s t c)) := by
  have hmembers : ∀ l : List (Text × ClassRow),
      (l.flatMap (memberRenames (m.tierNames s t) s t)).filterMap (Entry.nameFor .ofClass) = [] := by
    intro l
    rw [List.filterMap_eq_nil_iff]
    intro e he
    obtain ⟨p, -, he⟩ := List.mem_flatMap.1 he
    obtain ⟨kind, row, -, hrow⟩ := exists_row_of_mem_memberRenames he
    obtain ⟨k, -, rfl⟩ := memberRename?_eq_some hrow
    cases kind <;> rfl
  rw [tableBetween_eq]
  show SymbolKind.ofClass.names _ = _
  rw [Table.ofRenames_names, renamesBetween, List.filterMap_append, hmembers, List.append_nil,
    h.classRenames_eq, List.map_map, List.filterMap_map, OrderedMap.values, List.map_map,
    ← List.filterMap_eq_map']
  rfl

/-- **The classes of the table**, each under its source name. -/
theorem get?_classes {source target : Text} :
    (m.tableBetween s t).classes.get? source = some target ↔
      ∃ c ∈ m.classes.values, nameIn c.names s = source ∧ m.newName s t c = target := by
  rw [h.classes_tableBetween, OrderedMap.get?_ofList_iff, List.mem_map]
  · simp only [Prod.mk.injEq]
  · apply OrderedMap.functional_map
    intro c hc c' hc' hname
    obtain rfl : c = c' := by
      apply h.eq_of_nameAt hc hc'
      rw [h.nameAt_eq hc, h.nameAt_eq hc']
      exact congrArg some hname
    rfl

theorem get?_classes_of_mem {c : ClassRow} (hc : c ∈ m.classes.values) :
    (m.tableBetween s t).classes.get? (nameIn c.names s) = some (m.newName s t c) :=
  (h.get?_classes t).2 ⟨c, hc, rfl, rfl⟩

/-- **A class without a target name follows the nearest class around it that has one.** -/
theorem get?_classes_of_missing {c : ClassRow} (hc : c ∈ m.classes.values) {name : Text}
    (hsource : nameAt c.names s = some name) (htarget : nameAt c.names t = none) :
    (∃ a b rest, m.NearestNamed s t name a b rest ∧
      (m.tableBetween s t).classes.get? name = some (b ++ rest)) ∨
    m.Unnamed s t name ∧ (m.tableBetween s t).classes.get? name = some name := by
  obtain rfl : nameIn c.names s = name := Option.some.inj ((h.nameAt_eq hc).symm.trans hsource)
  have hnew : m.newName s t c = resolveNested (m.namedClasses s t).get? (nameIn c.names s) := by
    rw [newName, htarget, Option.getD_none]
  rw [h.get?_classes_of_mem t hc, hnew]
  rcases h.nearestNamed_or_unnamed t (nameIn c.names s) with ⟨a, b, rest, hnear, heq⟩ | ⟨hnone, heq⟩
  · exact .inl ⟨a, b, rest, hnear, congrArg some heq⟩
  · exact .inr ⟨hnone, congrArg some heq⟩

/-! ## Members -/

/-- The owner of a member goes by the name of its class. -/
theorem owner_eq {p : Text × ClassRow} (hp : p ∈ m.classes.toList) :
    (nameAt p.2.names s).getD (resolveNested (m.tierNames s t).toSource.get? p.1) =
        nameIn p.2.names s ∧
      (nameAt p.2.names t).getD (resolveNested (m.tierNames s t).toTarget.get? p.1) =
        m.newName s t p.2 := by
  have hc : p.2 ∈ m.classes.values := List.mem_map_of_mem hp
  have htarget : (m.tierNames s t).toTarget.get? p.1 = some (m.newName s t p.2) := by
    rw [h.get?_toTarget, OrderedMap.get?_eq_some_iff.2 hp, Option.map_some]
  constructor
  · rw [h.nameAt_eq hc, Option.getD_some]
  · rw [resolveNested_of_find htarget]
    cases hname : nameAt p.2.names t with
    | none => rfl
    | some target => rw [newName, hname, Option.getD_some, Option.getD_some]

/-- What a class is called in the source tier, the table renames to what it is called in the
target tier. -/
theorem renameClass_toSource {first : Text}
    (hfirst : first ∈ m.classes.keys ∨ ∀ c ∈ m.classes.values, nameAt c.names s ≠ some first) :
    (m.tableBetween s t).renameClass ((m.tierNames s t).toSource.getD first first) =
      (m.tierNames s t).toTarget.getD first first := by
  unfold OrderedMap.getD
  rw [h.get?_toSource, h.get?_toTarget]
  cases hc : m.classes.get? first with
  | some c =>
    have hvalue := OrderedMap.mem_values_of_get? hc
    exact Table.renameClass_of_get? (h.get?_classes_of_mem t hvalue)
  | none =>
    apply Table.renameClass_of_notMem
    rw [← OrderedMap.get?_eq_none_iff, Option.eq_none_iff_forall_ne_some]
    intro target htarget
    obtain ⟨c, hvalue, hsource, -⟩ := (h.get?_classes t).1 htarget
    rcases hfirst with hkey | hnot
    · exact absurd hkey (OrderedMap.get?_eq_none_iff.1 hc)
    · exact hnot c hvalue ((h.nameAt_eq hvalue).trans (congrArg some hsource))

theorem notMem_toSource {first : Text} (hfirst : ';' ∉ first) :
    ';' ∉ (m.tierNames s t).toSource.getD first first := by
  unfold OrderedMap.getD
  rw [h.get?_toSource]
  cases hc : m.classes.get? first with
  | none => exact hfirst
  | some c => exact h.closed c (OrderedMap.mem_values_of_get? hc)

/-- A descriptor on its way from the first tier to the target tier may pass through the source
tier. -/
theorem rename_toSource {kind : MemberKind} {p : ClassRow × MemberRow} (hp : p ∈ m.members kind)
    {d : Text} (hd : d ∈ p.2.descriptor) :
    (m.tableBetween s t).renameDescriptor
        (Descriptor.rename (fun c => (m.tierNames s t).toSource.getD c c) d) =
      Descriptor.rename (fun c => (m.tierNames s t).toTarget.getD c c) d := by
  unfold Table.renameDescriptor
  rw [Descriptor.rename_rename]
  · apply Descriptor.rename_congr
    intro name hname
    exact h.renameClass_toSource t (h.settled kind p hp d hd name hname)
  · intro name hname
    exact h.notMem_toSource t (Descriptor.notMem_of_mem_classNames hname)

/-- **The entry of a member says of the classes in it what the table says of them.** -/
theorem follows_of_mem_entries {kind : MemberKind} {source target : Identity} {comment : Datum}
    (he : .ofMember kind source target comment ∈ (m.tableBetween s t).entries.values) :
    (m.tableBetween s t).classes.get? source.owner = some target.owner ∧
      (m.tableBetween s t).SignatureFollows source target := by
  have hrename : .ofMember kind source target comment ∈ m.renamesBetween s t := by
    rw [tableBetween_eq] at he
    exact Table.mem_renames_of_mem_values he
  rcases List.mem_append.1 hrename with hclass | hmember
  · obtain ⟨r, -, hr⟩ := List.mem_map.1 hclass
    cases hr
  obtain ⟨p, hp, hmember⟩ := List.mem_flatMap.1 hmember
  have hc : p.2 ∈ m.classes.values := List.mem_map_of_mem hp
  obtain ⟨kind', row, hrow, hsome⟩ := exists_row_of_mem_memberRenames hmember
  obtain ⟨k, hk, heq⟩ := memberRename?_eq_some hsome
  cases heq
  obtain ⟨name, -, rfl⟩ := Option.map_eq_some_iff.1 hk
  obtain ⟨hsource, htarget⟩ := h.owner_eq t hp
  constructor
  · show (m.tableBetween s t).classes.get? (Option.getD _ _) = some (Option.getD _ _)
    rw [hsource, htarget]
    exact h.get?_classes_of_mem t hc
  · show (row.descriptor.map _).map Signature.text = ((row.descriptor.map _).map Signature.text).map _
    rw [Option.map_map, Option.map_map, Option.map_map]
    apply Option.map_congr
    intro d hd
    have hp : (p.2, row) ∈ m.members kind := mem_members.2 ⟨hc, hrow⟩
    exact congrArg Signature.text (h.rename_toSource t hp hd).symm

end Sourced

/-- **A loaded table is in keeping with its own classes.** The entry of a member changes owner and
signature as the table changes the classes in them, and a class without a target name follows the
nearest class around it that has one. -/
theorem table_follows (m : Mapping) (source target : Option Text) (m' : Mapping) (s t : Nat)
    (hchosen : m.chosen source target = .ok (m', s, t)) (h : m'.Sourced s) :
    ∃ r, m.table source target = .ok r ∧
      (∀ kind k k' comment, .ofMember kind k k' comment ∈ r.entries.values →
        r.classes.get? k.owner = some k'.owner ∧ r.SignatureFollows k k') ∧
      ∀ c ∈ m'.classes.values, ∀ name, nameAt c.names s = some name → nameAt c.names t = none →
        (∃ a b rest, m'.NearestNamed s t name a b rest ∧ r.classes.get? name = some (b ++ rest)) ∨
        m'.Unnamed s t name ∧ r.classes.get? name = some name := by
  refine ⟨m'.tableBetween s t, ?_, ?_, ?_⟩
  · rw [table_eq_chosen, hchosen]
    rfl
  · intro kind k k' comment he
    exact h.follows_of_mem_entries t he
  · intro c hc name hsource htarget
    exact h.get?_classes_of_missing t hc hsource htarget

/-- Two classes without a target name, one of them inside a class that has one. -/
theorem table_follows_missing :
    let names (l : List String) : List (Option Text) := l.map fun s => some s.toList
    let row (l : List String) (d : String) : MemberRow := ⟨names l, some d.toList, none⟩
    let m : Mapping := ⟨.tiny2, ["one".toList, "two".toList, "three".toList], [],
      .ofList [("a".toList, ⟨names ["a", "x/A", "y/B"], true, none, [], []⟩),
        ("b".toList, ⟨names ["b", "x/A$I"], true, none, [row ["f", "g", "h"] "[La;"], []⟩),
        ("c".toList, ⟨names ["c", "x/C", ""], true, none, [],
          [row ["m", "n"] "(Lb;Lc;)Lz/Z;"]⟩)]⟩
    m.Sourced 1 ∧ ∃ r, m.table (some "two".toList) (some "three".toList) = .ok r ∧
      ∀ kind k k' comment, .ofMember kind k k' comment ∈ r.entries.values →
        r.classes.get? k.owner = some k'.owner ∧ r.SignatureFollows k k' := by
  intro names row m
  have h : m.Sourced 1 := by
    constructor
    · decide
    · decide
    · decide
    · decide
    · rintro (_ | _) <;> decide
  obtain ⟨r, hr, hfollows, -⟩ := table_follows m (some "two".toList) (some "three".toList) m 1 2 rfl h
  exact ⟨h, r, hr, hfollows⟩

end Mapping

end Renaming
