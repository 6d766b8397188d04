import Renaming.Proofs.Mapping.Direct

/-!
# `Proofs/Mapping/Middle` — going through a tier in the middle

A table from one tier to a third can also be made in two steps, by way of a second tier, and the
two steps composed. The composition sees no rows any more: it reads each member back from its key,
renames its owner and its descriptor by the first table, and asks the second table and both indexes
about what comes out. All of these questions are answered by

> the first table passes a member on as it is called in the middle tier (`Between.passOn`).

So a composition of tables between tiers is between the outer ones (`Between.compose`), and is what
is made directly.
-/

set_option autoImplicit false

namespace Renaming

/-- A comment joined with itself. -/
theorem mergeComments_self {c : Option Text} (h : c ≠ some []) :
    mergeComments (.ofText? c) (.ofText? c) = .ofText? c := by
  cases c with
  | none => rfl
  | some t =>
    cases t with
    | nil => exact absurd rfl h
    | cons x t =>
      have hsame : (Datum.text (x :: t)).differ? (Datum.text (x :: t)) = some false := by
        show some (!(x :: t == x :: t)) = some false
        rw [beq_self_eq_true]
        rfl
      unfold mergeComments
      rw [Datum.ofText?, hsame]
      rfl

namespace Mapping

section Step

variable {m : Mapping} (h : m.Regular) {i j : Nat} (hi : i < m.namespaces.length)
  (hj : j < m.namespaces.length) {t : Table} (ht : Between m i j t)

include ht

/-! ## Classes and descriptors -/

theorem Between.mapNested {c : ClassRow} (hc : c ∈ m.classes.values) :
    t.mapNested (nameIn c.names i) = nameIn c.names j :=
  resolveNested_of_find ((ht.classes _ _).2 ⟨c, hc, rfl, rfl⟩)

include h hi

/-- A class of a descriptor, known to the mapping or not. -/
theorem Between.renameClass {name : Text} (hname : m.Settled name) :
    t.renameClass (m.inTier i name) = m.inTier j name := by
  unfold Table.renameClass OrderedMap.getD inTier
  cases hc : m.classes.get? name with
  | some c =>
    have hvalue := OrderedMap.mem_values_of_get? hc
    rw [Option.map_some, Option.map_some, Option.getD_some, Option.getD_some,
      (ht.classes _ _).2 ⟨c, hvalue, rfl, rfl⟩, Option.getD_some]
  | none =>
    -- a settled name that is no key is not the name of a class in any tier
    have hnone : t.classes.get? name = none := by
      cases htarget : t.classes.get? name with
      | none => rfl
      | some target =>
        obtain ⟨c, hvalue, hsource, -⟩ := (ht.classes _ _).1 htarget
        rcases hname with hkey | hnot
        · exact absurd hkey (OrderedMap.get?_eq_none_iff.1 hc)
        · exact absurd (by rw [h.complete.nameAt_class hi hvalue, hsource]) (hnot c hvalue i hi)
    rw [Option.map_none, Option.map_none, Option.getD_none, hnone]
    rfl

theorem Between.rename_descriptor {kind : MemberKind} {p : ClassRow × MemberRow}
    (hp : p ∈ m.members kind) :
    (m.keyIn i p).descriptor.map t.renameDescriptor = (m.keyIn j p).descriptor := by
  show (p.2.descriptor.map _).map _ = p.2.descriptor.map _
  rw [Option.map_map]
  apply Option.map_congr
  intro d hd
  show Descriptor.rename t.renameClass (Descriptor.rename (m.inTier i) d) = _
  rw [Descriptor.rename_rename fun name hname =>
    h.semicolon_notMem_inTier hi (Descriptor.notMem_of_mem_classNames hname)]
  exact Descriptor.rename_congr fun name hname =>
    ht.renameClass h hi (h.settled kind p hp d hd name hname)

/-! ## What is found by a source -/

theorem Between.ofClass?_bySource {c : ClassRow} (hc : c ∈ m.classes.values) :
    t.bySource.ofClass? (nameIn c.names i) = some (classEntry i j c) :=
  (ht.get?_bySource h hi).2 ⟨.ofClass hc, List.mem_cons_self⟩

theorem Between.ofMethod?_bySource {p : ClassRow × MemberRow} (hp : p ∈ m.members .method) :
    t.bySource.ofMethod? (m.keyIn i p).owner (m.keyIn i p).name (m.keyIn i p).descriptor =
      some (m.memberEntry .method i j p) := by
  refine (ht.get?_bySource h hi).2 ⟨.ofMember hp, ?_⟩
  have hkey : (m.memberEntry .method i j p).sourceKey = (m.keyIn i p).format :=
    h.keyText_keyIn hp
  show (_, (m.keyIn i p).format) ∈ _
  rw [← hkey]
  exact List.mem_cons_self

theorem Between.ofField?_bySource {p : ClassRow × MemberRow} (hp : p ∈ m.members .field)
    {d : Option Text} (hd : d = none ∨ d = (m.keyIn i p).descriptor) :
    t.bySource.ofField? (m.keyIn i p).owner (m.keyIn i p).name d =
      some (m.memberEntry .field i j p) := by
  have hbare : t.bySource.get? (.ofField, bareKey (m.keyIn i p).owner (m.keyIn i p).name) =
      some (m.memberEntry .field i j p) :=
    (ht.get?_bySource h hi).2 ⟨.ofMember hp, List.mem_cons_self⟩
  have hqualified : ∀ d, (m.keyIn i p).descriptor = some d →
      t.bySource.get? (.ofField, qualifiedKey (m.keyIn i p).owner (m.keyIn i p).name d) =
        some (m.memberEntry .field i j p) := by
    intro d hd
    refine (ht.get?_bySource h hi).2 ⟨.ofMember hp, List.mem_cons_of_mem _ ?_⟩
    have hsignature : (Identity.ofKey (m.keyIn i p)).signature = some (.text d) := by
      rw [Identity.ofKey, hd]
      rfl
    apply List.mem_map.2
    exact ⟨.text d, by rw [hsignature]; exact List.mem_cons_self, rfl⟩
  -- the key with the signature is tried first; both lead to the one entry
  unfold Table.SourceIndex.ofField?
  rcases hd with rfl | rfl
  · exact hbare
  · cases hdescriptor : (m.keyIn i p).descriptor with
    | none => exact hbare
    | some d => rw [Option.bind_some, hqualified d hdescriptor]

/-! ## Members -/

theorem Between.signatureOf {kind : MemberKind} {p : ClassRow × MemberRow}
    (hp : p ∈ m.members kind) :
    t.signatureOf kind (kind.kept (m.keyIn i p)) = (m.keyIn i p).descriptor.map .text := by
  cases kind with
  | field =>
    have hfound := ht.ofField?_bySource h hi hp (.inl rfl)
    show Option.bind (t.bySource.ofField? (m.keyIn i p).owner (m.keyIn i p).name none) _ = _
    rw [hfound]
    rfl
  | method => rfl

/-- A member is looked up with its signature or by what is kept of it. -/
theorem Between.memberComment {kind : MemberKind} {p : ClassRow × MemberRow}
    (hp : p ∈ m.members kind) :
    t.memberComment kind (m.keyIn i p) = .ofText? p.2.comment ∧
      t.memberComment kind (kind.kept (m.keyIn i p)) = .ofText? p.2.comment := by
  cases kind with
  | field =>
    constructor
    · exact congrArg Table.commentOf (ht.ofField?_bySource h hi hp (.inr rfl))
    · exact congrArg Table.commentOf (ht.ofField?_bySource h hi hp (.inl rfl))
  | method =>
    have hcomment := congrArg Table.commentOf (ht.ofMethod?_bySource h hi hp)
    exact ⟨hcomment, hcomment⟩

/-- **A table between two tiers passes a member on as it is called in the second.** -/
theorem Between.passOn {kind : MemberKind} {p : ClassRow × MemberRow} (hp : p ∈ m.members kind) :
    t.passOn kind (kind.kept (m.keyIn i p)) (nameIn p.2.names j) = m.keyIn j p := by
  have hdescriptor : (t.passOn kind (kind.kept (m.keyIn i p)) (nameIn p.2.names j)).descriptor =
      (m.keyIn j p).descriptor := by
    rw [← ht.rename_descriptor h hi hp]
    cases kind with
    | field =>
      have hsignature := ht.signatureOf h hi hp
      show (t.signatureOf .field (MemberKind.kept .field (m.keyIn i p))).map _ = _
      rw [hsignature, Option.map_map]
      rfl
    | method => rfl
  have howner : t.mapNested (kind.kept (m.keyIn i p)).owner = (m.keyIn j p).owner := by
    rw [MemberKind.kept_owner]
    exact ht.mapNested (mem_members.1 hp).1
  show MemberKey.mk (t.mapNested _) _
    (t.passOn kind (kind.kept (m.keyIn i p)) (nameIn p.2.names j)).descriptor = _
  rw [hdescriptor, howner]
  rfl

theorem Between.bareFields : t.BareFields := by
  apply Table.bareFields_of_notMem
  intro key hkey
  obtain ⟨target, htarget⟩ := Option.isSome_iff_exists.1 (OrderedMap.mem_keys_iff.1 hkey)
  obtain ⟨p, hp, rfl, -⟩ := (ht.names .field key target).1 htarget
  have hread := h.isReadable_keyIn hi hp
  exact MemberKey.blank_notMem_bareKey hread.owner hread.name.1

theorem Between.newName {kind : MemberKind} {p : ClassRow × MemberRow} (hp : p ∈ m.members kind) :
    t.newName kind (m.keyIn i p) = nameIn p.2.names j := by
  have hget := (ht.names kind _ _).2 ⟨p, hp, rfl, rfl⟩
  cases kind with
  | field =>
    rw [Table.newName_field_of_bareFields (ht.bareFields h hi), OrderedMap.getD]
    exact congrArg (Option.getD · _) hget
  | method =>
    rw [Table.newName_method, OrderedMap.getD]
    exact congrArg (Option.getD · _) hget

end Step

/-! ## The composition -/

section Composition

variable {m : Mapping} (h : m.Regular) {i j k : Nat} (hi : i < m.namespaces.length)
  (hj : j < m.namespaces.length) {t u : Table} (ht : Between m i j t) (hu : Between m j k u)

include ht

theorem Between.canonicalPackages : t.CanonicalPackages := by
  rw [Table.canonicalPackages_iff]
  intro p q hget
  rw [ht.packages] at hget
  cases hget

theorem Between.plainComments : t.PlainComments := by
  intro e he
  cases ht.mem_values.1 he with
  | ofClass hc => exact ⟨_, rfl⟩
  | ofMember hp => exact ⟨_, rfl⟩

include hu

theorem Between.get?_compose_packages (package : Text) :
    (t.compose u).packages.get? package = none := by
  rw [Table.get?_compose_packages ht.canonicalPackages hu.canonicalPackages, ht.packages,
    hu.packages, Option.map_none, Option.none_or, ite_self]

theorem Between.get?_compose_classes (source target : Text) :
    (t.compose u).classes.get? source = some target ↔
      ∃ c ∈ m.classes.values, nameIn c.names i = source ∧ nameIn c.names k = target := by
  rw [Table.get?_compose_classes, Option.map_eq_some_iff]
  constructor
  · rintro ⟨mid, hmid, rfl⟩
    obtain ⟨c, hc, hsource, rfl⟩ := (ht.classes _ _).1 hmid
    exact ⟨c, hc, hsource, (hu.mapNested hc).symm⟩
  · rintro ⟨c, hc, rfl, rfl⟩
    exact ⟨_, (ht.classes _ _).2 ⟨c, hc, rfl, rfl⟩, hu.mapNested hc⟩

include h hi hj

theorem Between.composedClass_eq {c : ClassRow} (hc : c ∈ m.classes.values) :
    t.composedClass u (nameIn c.names i, nameIn c.names j) = classEntry i k c := by
  have hcomments : Table.classComments t.bySource u.bySource (nameIn c.names i)
      (nameIn c.names j) = (.ofText? c.comment, .ofText? c.comment) := by
    rw [Table.classComments, ht.ofClass?_bySource h hi hc, hu.ofClass?_bySource h hj hc]
    rfl
  show Entry.ofClass _ (u.mapNested (nameIn c.names j)) (mergeComments
    (Table.classComments t.bySource u.bySource (nameIn c.names i) (nameIn c.names j)).1 _) = _
  rw [hcomments, hu.mapNested hc, mergeComments_self (h.classComments c hc)]
  rfl

theorem Between.composedMember_eq {kind : MemberKind} {p : ClassRow × MemberRow}
    (hp : p ∈ m.members kind) :
    t.composedMember u kind (kind.kept (m.keyIn i p)) (nameIn p.2.names j) =
      m.memberEntry kind i k p := by
  rw [Table.composedMember_eq, ht.passOn h hi hp, hu.newName h hj hp, ht.signatureOf h hi hp,
    (ht.memberComment h hi hp).2, (hu.memberComment h hj hp).1,
    mergeComments_self (h.memberComments kind p hp), hu.rename_descriptor h hj hp,
    MemberKind.kept_owner, MemberKind.kept_name]
  have howner : u.mapNested (m.keyIn j p).owner = (m.keyIn k p).owner :=
    hu.mapNested (mem_members.1 hp).1
  rw [howner]
  rfl

theorem Between.get?_compose_names (kind : MemberKind) (key target : Text) :
    (kind.names (t.compose u)).get? key = some target ↔
      ∃ p ∈ m.members kind, m.keptKey kind i p = key ∧ nameIn p.2.names k = target := by
  have hmember : ∀ p ∈ m.members kind,
      (kind.names (t.compose u)).get? (m.keptKey kind i p) = some (nameIn p.2.names k) := by
    intro p hp
    rw [Table.get?_compose_names_of_get? ((ht.names kind _ _).2 ⟨p, hp, rfl, rfl⟩)
      (h.read_keptKey hi hp), ht.passOn h hi hp, hu.newName h hj hp]
  constructor
  · intro hget
    -- a rename of the composition starts from one of `t`, so from a row
    have hsome := hget
    rw [Table.get?_compose_names] at hsome
    obtain ⟨mid, hmid, -⟩ := Option.bind_eq_some_iff.1 hsome
    obtain ⟨p, hp, rfl, -⟩ := (ht.names kind _ _).1 hmid
    rw [hmember p hp] at hget
    exact ⟨p, hp, rfl, Option.some.inj hget⟩
  · rintro ⟨p, hp, rfl, rfl⟩
    exact hmember p hp

theorem Between.mem_composedMembers {kind : MemberKind} {e : Entry} :
    e ∈ t.composedMembers u kind ↔ ∃ p ∈ m.members kind, m.memberEntry kind i k p = e := by
  unfold Table.composedMembers
  rw [List.mem_filterMap]
  constructor
  · rintro ⟨⟨key, mid⟩, hmid, he⟩
    obtain ⟨p, hp, rfl, rfl⟩ := (ht.names kind _ _).1 (OrderedMap.get?_eq_some_iff.2 hmid)
    rw [h.read_keptKey hi hp] at he
    refine ⟨p, hp, ?_⟩
    rw [← ht.composedMember_eq h hi hj hu hp]
    exact Option.some.inj he
  · rintro ⟨p, hp, rfl⟩
    refine ⟨(m.keptKey kind i p, nameIn p.2.names j),
      OrderedMap.get?_eq_some_iff.1 ((ht.names kind _ _).2 ⟨p, hp, rfl, rfl⟩), ?_⟩
    rw [h.read_keptKey hi hp, ← ht.composedMember_eq h hi hj hu hp]
    rfl

theorem Between.mem_composedEntries {e : Entry} :
    e ∈ t.composedEntries u ↔ m.IsEntry i k e := by
  unfold Table.composedEntries
  rw [List.mem_append, List.mem_append, ht.mem_composedMembers h hi hj hu,
    ht.mem_composedMembers h hi hj hu, List.mem_map]
  constructor
  · rintro ((⟨⟨source, mid⟩, hmid, rfl⟩ | ⟨p, hp, rfl⟩) | ⟨p, hp, rfl⟩)
    · obtain ⟨c, hc, rfl, rfl⟩ := (ht.classes _ _).1 (OrderedMap.get?_eq_some_iff.2 hmid)
      rw [ht.composedClass_eq h hi hj hu hc]
      exact .ofClass hc
    · exact .ofMember hp
    · exact .ofMember hp
  · intro he
    cases he with
    | @ofClass c hc =>
      refine .inl (.inl ⟨(nameIn c.names i, nameIn c.names j), ?_,
        ht.composedClass_eq h hi hj hu hc⟩)
      exact OrderedMap.get?_eq_some_iff.1 ((ht.classes _ _).2 ⟨c, hc, rfl, rfl⟩)
    | @ofMember kind p hp =>
      cases kind with
      | field => exact .inl (.inr ⟨p, hp, rfl⟩)
      | method => exact .inr ⟨p, hp, rfl⟩

/-- **Two tables between tiers compose to one between the outer tiers.** -/
theorem Between.compose (hk : k < m.namespaces.length) : Between m i k (t.compose u) where
  packages := ht.get?_compose_packages hu
  classes := ht.get?_compose_classes hu
  names := ht.get?_compose_names h hi hj hu
  entries key e := by
    rw [Table.compose_entries]
    exact h.get?_ofList_keyed_iff hk fun e => ht.mem_composedEntries h hi hj hu

end Composition

/-! ## Choosing tiers by name -/

theorem table_eq_tableBetween {m : Mapping} (htiered : m.isTiered = true) {a b : Text} {i j : Nat}
    (hi : m.namespaces.idxOf? a = some i) (hj : m.namespaces.idxOf? b = some j) :
    m.table (some a) (some b) = .ok (m.tableBetween i j) := by
  have hnonempty : m.namespaces.isEmpty = false := by
    cases hnames : m.namespaces with
    | nil =>
      rw [hnames] at hi
      cases hi
    | cons => rfl
  have htiers : m.tiers (some a) (some b) = .ok (i, j) := by
    rw [tiers, htiered, if_pos rfl, tierIndex, tierIndex, hi, hj]
    rfl
  unfold table
  rw [htiers, htiered, hnonempty]
  rfl

/-- **Any tier can stand in the middle.** The table made directly from one tier to another and the
one made by way of a third hold the same renames and the same entries, and are found to be the
same. -/
theorem table_compose {m : Mapping} (h : m.Regular) (htiered : m.isTiered = true) {a b c : Text}
    (ha : a ∈ m.namespaces) (hb : b ∈ m.namespaces) (hc : c ∈ m.namespaces) :
    ∃ first second direct composed,
      m.table (some a) (some b) = .ok first ∧ m.table (some b) (some c) = .ok second ∧
      m.table (some a) (some c) = .ok direct ∧ Table.composed first second = .ok composed ∧
      Table.SameLookups direct composed ∧ direct.same? composed = some true := by
  obtain ⟨i, hi, hai⟩ := exists_tier ha
  obtain ⟨j, hj, hbj⟩ := exists_tier hb
  obtain ⟨k, hk, hck⟩ := exists_tier hc
  have hfirst := h.between_tableBetween hi hj
  have hsecond := h.between_tableBetween hj hk
  have hdirect := h.between_tableBetween hi hk
  have hcomposed := hfirst.compose h hi hj hsecond hk
  have hsame := hdirect.same hcomposed
  refine ⟨_, _, _, _, table_eq_tableBetween htiered hai hbj, table_eq_tableBetween htiered hbj hck,
    table_eq_tableBetween htiered hai hck,
    Table.composed_of_plain hfirst.plainComments hsecond.plainComments, hsame, hsame.same? ?_⟩
  intro e he
  exact (hcomposed.mem_values.1 he).same?_self

/-- Two classes that change names in the middle tier, each in a descriptor of the other. -/
theorem table_compose_swapped :
    let names (l : List String) : List (Option Text) := l.map fun s => some s.toList
    let row (l : List String) (d : String) (c : Option Text) : MemberRow :=
      ⟨names l, some d.toList, c⟩
    let m : Mapping := ⟨.tiny2, ["one".toList, "two".toList, "three".toList], [],
      .ofList [("a".toList, ⟨names ["a", "b", "c/A"], true, some "first".toList,
          [row ["f", "g", "h"] "[Lb;" none],
          [row ["m", "n", "o"] "(La;Lz/Z;)V" (some "runs".toList), row ["m", "m", "o"] "(Lb;)V" none]⟩),
        ("b".toList, ⟨names ["b", "a", "c/B"], true, none, [row ["f", "f", "f"] "La;" none], []⟩)]⟩
    m.Regular ∧ ∃ first second direct composed,
      m.table (some "one".toList) (some "two".toList) = .ok first ∧
      m.table (some "two".toList) (some "three".toList) = .ok second ∧
      m.table (some "one".toList) (some "three".toList) = .ok direct ∧
      Table.composed first second = .ok composed ∧ Table.SameLookups direct composed ∧
      direct.same? composed = some true := by
  intro names row m
  have h : m.Regular := by
    constructor
    · rfl
    · decide +kernel
    · decide +kernel
    · rintro (_ | _) <;> decide +kernel
    · decide +kernel
    · decide +kernel
    · decide +kernel
    · decide +kernel
    · decide +kernel
    · rintro (_ | _) <;> decide +kernel
    · rintro (_ | _) <;> decide +kernel
  exact ⟨h, table_compose h (by decide) (by decide) (by decide) (by decide)⟩

end Mapping

end Renaming
