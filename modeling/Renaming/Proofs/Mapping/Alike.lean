import Renaming.Proofs.Mapping.Between
import Renaming.Proofs.Mapping.Renames

/-!
# `Proofs/Mapping/Alike` — mappings that differ in order alone

Two mappings are alike if they have the same packages, and the same classes with the same members,
in whatever order. The order of rows decides which of two renames wins when both are written to one
place, so that mappings that are alike may have different tables. It is the only thing it decides:

> as long as no two renames share a key on either side (`ConflictFree`), mappings that are alike
> make the same table (`Alike.sameLookups`).

All maps on the way are looked up only, and what a look-up finds in a map without conflicts is what
was written to it. So it is enough to compare what is written, and not in which order.
-/

set_option autoImplicit false

namespace Renaming

/-- The classes have the same names, the same comment and the same members. -/
structure ClassRow.Alike (c c' : ClassRow) : Prop where
  names : c.names = c'.names
  declared : c.declared = c'.declared
  comment : c.comment = c'.comment
  rows : ∀ kind row, row ∈ MemberKind.rows kind c ↔ row ∈ MemberKind.rows kind c'

namespace ClassRow.Alike

variable {c c' c'' : ClassRow}

theorem refl (c : ClassRow) : c.Alike c := ⟨rfl, rfl, rfl, fun _ _ => Iff.rfl⟩

theorem symm (h : c.Alike c') : c'.Alike c :=
  ⟨h.names.symm, h.declared.symm, h.comment.symm, fun kind row => (h.rows kind row).symm⟩

theorem trans (h : c.Alike c') (h' : c'.Alike c'') : c.Alike c'' :=
  ⟨h.names.trans h'.names, h.declared.trans h'.declared, h.comment.trans h'.comment,
    fun kind row => (h.rows kind row).trans (h'.rows kind row)⟩

end ClassRow.Alike

/-- Other names leave the members. -/
theorem ClassRow.mem_rows_named {c : ClassRow} {names : List (Option Text)} {declared : Bool}
    {comment : Option Text} {kind : MemberKind} {row : MemberRow} :
    row ∈ MemberKind.rows kind { c with names := names, declared := declared, comment := comment } ↔
      row ∈ MemberKind.rows kind c := by
  cases kind <;> exact Iff.rfl

namespace Mapping

/-- The mappings hold the same packages and the same classes. -/
structure Alike (m m' : Mapping) : Prop where
  format : m.format = m'.format
  namespaces : m.namespaces = m'.namespaces
  packages : ∀ p, p ∈ m.packages ↔ p ∈ m'.packages
  classes : ∀ first, Option.Rel ClassRow.Alike (m.classes.get? first) (m'.classes.get? first)

namespace Alike

variable {m m' m'' : Mapping}

theorem refl (m : Mapping) : m.Alike m := by
  refine ⟨rfl, rfl, fun _ => Iff.rfl, fun first => ?_⟩
  cases m.classes.get? first with
  | none => exact .none
  | some c => exact .some (.refl c)

theorem symm (h : m.Alike m') : m'.Alike m := by
  refine ⟨h.format.symm, h.namespaces.symm, fun p => (h.packages p).symm, fun first => ?_⟩
  have hclass := h.classes first
  revert hclass
  generalize m.classes.get? first = a
  generalize m'.classes.get? first = b
  intro hclass
  cases hclass with
  | none => exact .none
  | some hc => exact .some hc.symm

theorem exists_get? (h : m.Alike m') {first : Text} {c : ClassRow}
    (hc : m.classes.get? first = some c) : ∃ c', m'.classes.get? first = some c' ∧ c.Alike c' := by
  have hclass := h.classes first
  rw [hc] at hclass
  generalize m'.classes.get? first = b at hclass
  cases hclass with
  | some hc => exact ⟨_, rfl, hc⟩

theorem trans (h : m.Alike m') (h' : m'.Alike m'') : m.Alike m'' := by
  refine ⟨h.format.trans h'.format, h.namespaces.trans h'.namespaces,
    fun p => (h.packages p).trans (h'.packages p), fun first => ?_⟩
  cases hc : m.classes.get? first with
  | some c =>
    obtain ⟨c', hc', halike⟩ := h.exists_get? hc
    obtain ⟨c'', hc'', halike'⟩ := h'.exists_get? hc'
    rw [hc'']
    exact .some (halike.trans halike')
  | none =>
    cases hc'' : m''.classes.get? first with
    | none => exact .none
    | some c'' =>
      obtain ⟨c', hc', -⟩ := h'.symm.exists_get? hc''
      obtain ⟨c, hc₀, -⟩ := h.symm.exists_get? hc'
      rw [hc] at hc₀
      cases hc₀

end Alike

/-! ## Renames without conflicts -/

/-- No two packages go by one name, and no two renames share the key of their kind on either side.
What is said twice is no conflict. -/
structure ConflictFree (packages : List (Text × Text)) (renames : List Entry) : Prop where
  packages : ∀ p ∈ packages, ∀ q ∈ packages, Package.canonical p.1 = Package.canonical q.1 →
    Package.canonical p.2 = Package.canonical q.2
  sources : ∀ e ∈ renames, ∀ e' ∈ renames, e.kind = e'.kind → e.sourceKey = e'.sourceKey → e = e'
  targets : ∀ e ∈ renames, ∀ e' ∈ renames, e.kind = e'.kind → e.targetKey = e'.targetKey → e = e'

section Lookups

variable {κ α : Type} [DecidableEq κ]

/-- Maps that are filled from the same pairs, in any order. -/
theorem get?_ofList_congr {l l' : List (κ × α)} (h : ∀ p, p ∈ l ↔ p ∈ l')
    (hl : OrderedMap.Functional l) (k : κ) :
    (OrderedMap.ofList l).get? k = (OrderedMap.ofList l').get? k := by
  have hl' : OrderedMap.Functional l' :=
    fun p hp q hq => hl p ((h p).2 hp) q ((h q).2 hq)
  apply Option.ext
  intro v
  rw [OrderedMap.get?_ofList_iff hl, OrderedMap.get?_ofList_iff hl', h]

/-- **Without conflicts, the order of renames does not count.** -/
theorem ConflictFree.sameLookups {packages packages' : List (Text × Text)}
    {renames renames' : List Entry} (h : ConflictFree packages renames)
    (hpackages : ∀ p, p ∈ packages ↔ p ∈ packages') (hrenames : ∀ e, e ∈ renames ↔ e ∈ renames') :
    Table.SameLookups
      (.ofRenames (.ofList (packages.map fun p => (Package.canonical p.1, Package.canonical p.2)))
        renames)
      (.ofRenames (.ofList (packages'.map fun p => (Package.canonical p.1, Package.canonical p.2)))
        renames') := by
  have hnames : ∀ (kind : SymbolKind) key,
      (kind.names (Table.ofRenames (.ofList (packages.map fun p =>
        (Package.canonical p.1, Package.canonical p.2))) renames)).get? key =
      (kind.names (Table.ofRenames (.ofList (packages'.map fun p =>
        (Package.canonical p.1, Package.canonical p.2))) renames')).get? key := by
    intro kind key
    rw [Table.ofRenames_names, Table.ofRenames_names]
    apply get?_ofList_congr
    · intro p
      simp only [List.mem_filterMap, hrenames]
    · intro p hp q hq hkey
      obtain ⟨e, he, hnamed⟩ := List.mem_filterMap.1 hp
      obtain ⟨e', he', hnamed'⟩ := List.mem_filterMap.1 hq
      obtain ⟨hkind, hsource, hname⟩ := Entry.nameFor_eq_some_iff.1 hnamed
      obtain ⟨hkind', hsource', hname'⟩ := Entry.nameFor_eq_some_iff.1 hnamed'
      obtain rfl := h.sources e he e' he' (hkind.trans hkind'.symm)
        (by rw [hsource, hsource']; exact hkey)
      exact hname.symm.trans hname'
  refine ⟨?_, hnames .ofClass, hnames .ofField, hnames .ofMethod, ?_⟩
  · intro package
    rw [Table.ofRenames_packages, Table.ofRenames_packages]
    apply get?_ofList_congr
    · intro p
      simp only [List.mem_map, hpackages]
    · apply OrderedMap.functional_map
      exact fun p hp q hq hkey => h.packages p hp q hq hkey
  · intro k
    rw [Table.ofRenames_entries, Table.ofRenames_entries]
    apply get?_ofList_congr
    · intro p
      simp only [List.mem_map, hrenames]
    · apply OrderedMap.functional_map
      intro e he e' he' hkey
      rw [Entry.keyed, Entry.keyed, Prod.mk.injEq] at hkey
      exact h.targets e he e' he' hkey.1 hkey.2

end Lookups

/-! ## The renames of a mapping -/

section Renames

variable (m : Mapping) (s t : Nat)

/-- The names of the declared classes that have both, in order. -/
def namedPairs : List (Text × Text) :=
  m.classes.values.filterMap fun c =>
    match c.declared, nameAt c.names s, nameAt c.names t with
    | true, some source, some target => some (source, target)
    | _, _, _ => none

theorem namedClasses_eq : m.namedClasses s t = .ofList (m.namedPairs s t) := by
  unfold namedClasses namedPairs OrderedMap.ofList
  rw [List.foldl_filterMap]
  congr 1
  funext named c
  cases c.declared <;> cases nameAt c.names s <;> cases nameAt c.names t <;> rfl

theorem mem_namedPairs_iff {source target : Text} : (source, target) ∈ m.namedPairs s t ↔
    ∃ first c, m.classes.get? first = some c ∧ c.declared = true ∧
      nameAt c.names s = some source ∧ nameAt c.names t = some target := by
  unfold namedPairs
  rw [List.mem_filterMap]
  constructor
  · rintro ⟨c, hc, hpair⟩
    obtain ⟨first, hfirst⟩ := OrderedMap.mem_values_iff.1 hc
    split at hpair
    · rename_i hdeclared hsource htarget
      cases hpair
      exact ⟨first, c, hfirst, hdeclared, hsource, htarget⟩
    · cases hpair
  · rintro ⟨first, c, hfirst, hdeclared, hsource, htarget⟩
    refine ⟨c, OrderedMap.mem_values_of_get? hfirst, ?_⟩
    rw [hdeclared, hsource, htarget]

/-- The target name of a class, which follows the class around it if it has none of its own. -/
def targetName (c : ClassRow) (source : Text) : Text :=
  (nameAt c.names t).getD (resolveNested (m.namedClasses s t).get? source)

theorem mem_classRenames_iff {first source target : Text} {comment : Option Text} :
    (first, source, target, comment) ∈ m.classRenames s t ↔
      ∃ c, m.classes.get? first = some c ∧ c.declared = true ∧ nameAt c.names s = some source ∧
        target = m.targetName s t c source ∧ comment = c.comment := by
  unfold classRenames targetName
  rw [List.mem_filterMap]
  constructor
  · rintro ⟨⟨first', c⟩, hc, hrename⟩
    dsimp only at hrename
    split at hrename
    · rename_i hdeclared
      obtain ⟨source', hsource, heq⟩ := Option.map_eq_some_iff.1 hrename
      cases heq
      exact ⟨c, OrderedMap.get?_eq_some_iff.2 hc, hdeclared, hsource, rfl, rfl⟩
    · cases hrename
  · rintro ⟨c, hc, hdeclared, hsource, rfl, rfl⟩
    refine ⟨(first, c), OrderedMap.get?_eq_some_iff.1 hc, ?_⟩
    dsimp only
    rw [if_pos hdeclared, hsource]
    rfl

theorem mem_renamesBetween_iff {e : Entry} : e ∈ m.renamesBetween s t ↔
    (∃ r ∈ m.classRenames s t, .ofClass r.2.1 r.2.2.1 (.ofText? r.2.2.2) = e) ∨
      ∃ p, m.classes.get? p.1 = some p.2 ∧ e ∈ memberRenames (m.tierNames s t) s t p := by
  unfold renamesBetween
  rw [List.mem_append, List.mem_map, List.mem_flatMap]
  simp only [OrderedMap.get?_eq_some_iff]

/-- No two classes share a first name. -/
theorem functional_classRenames {f : Text × Text × Option Text → Text} :
    OrderedMap.Functional ((m.classRenames s t).map fun r => (r.1, f r.2)) := by
  apply OrderedMap.functional_map
  rintro ⟨first, source, target, comment⟩ hr ⟨first', source', target', comment'⟩ hr' hfirst
  obtain ⟨c, hc, -, hsource, htarget, hcomment⟩ := (mem_classRenames_iff m s t).1 hr
  obtain ⟨c', hc', -, hsource', htarget', hcomment'⟩ := (mem_classRenames_iff m s t).1 hr'
  obtain rfl : first = first' := hfirst
  rw [hc] at hc'
  cases hc'
  rw [hsource] at hsource'
  cases hsource'
  rw [htarget, htarget', hcomment, hcomment']

end Renames

/-! ## Alike mappings have the same renames -/

namespace Alike

section Between

variable {m m' : Mapping} (h : m.Alike m') {s t : Nat}

include h

theorem mem_namedPairs_of_mem {p : Text × Text} (hp : p ∈ m.namedPairs s t) :
    p ∈ m'.namedPairs s t := by
  obtain ⟨first, c, hc, hdeclared, hsource, htarget⟩ := (mem_namedPairs_iff m s t).1 hp
  obtain ⟨c', hc', halike⟩ := h.exists_get? hc
  rw [halike.declared] at hdeclared
  rw [halike.names] at hsource htarget
  exact (mem_namedPairs_iff m' s t).2 ⟨first, c', hc', hdeclared, hsource, htarget⟩

variable (hnamed : OrderedMap.Functional (m.namedPairs s t))

include hnamed

theorem get?_namedClasses : (m.namedClasses s t).get? = (m'.namedClasses s t).get? := by
  funext name
  rw [namedClasses_eq, namedClasses_eq]
  apply get?_ofList_congr _ hnamed
  exact fun p => ⟨h.mem_namedPairs_of_mem, h.symm.mem_namedPairs_of_mem⟩

theorem mem_classRenames {r : Text × Text × Text × Option Text} :
    r ∈ m.classRenames s t ↔ r ∈ m'.classRenames s t := by
  have hnames := h.get?_namedClasses hnamed
  have hname : ∀ c source, m.targetName s t c source = m'.targetName s t c source := by
    intro c source
    rw [targetName, targetName, hnames]
  obtain ⟨first, source, target, comment⟩ := r
  rw [mem_classRenames_iff, mem_classRenames_iff]
  constructor
  · rintro ⟨c, hc, hdeclared, hsource, htarget, hcomment⟩
    obtain ⟨c', hc', halike⟩ := h.exists_get? hc
    rw [hname, targetName, halike.names] at htarget
    exact ⟨c', hc', halike.declared ▸ hdeclared, halike.names ▸ hsource, htarget,
      hcomment.trans halike.comment⟩
  · rintro ⟨c', hc', hdeclared, hsource, htarget, hcomment⟩
    obtain ⟨c, hc, halike⟩ := h.symm.exists_get? hc'
    rw [← hname, targetName, halike.names] at htarget
    exact ⟨c, hc, halike.declared ▸ hdeclared, halike.names ▸ hsource, htarget,
      hcomment.trans halike.comment⟩

theorem get?_tierNames (f : Text × Text × Option Text → Text) :
    (OrderedMap.ofList ((m.classRenames s t).map fun r => (r.1, f r.2))).get? =
      (OrderedMap.ofList ((m'.classRenames s t).map fun r => (r.1, f r.2))).get? := by
  funext first
  apply get?_ofList_congr _ (functional_classRenames m s t)
  intro p
  simp only [List.mem_map, h.mem_classRenames hnamed]

/-- Members of the same class have the same renames. -/
theorem memberRename?_eq (kind : MemberKind) (source target : Text) (row : MemberRow) :
    memberRename? (m.tierNames s t) s t kind source target row =
      memberRename? (m'.tierNames s t) s t kind source target row := by
  have hsource : (m.tierNames s t).toSource.get? = (m'.tierNames s t).toSource.get? :=
    h.get?_tierNames hnamed fun r => r.1
  have htarget : (m.tierNames s t).toTarget.get? = (m'.tierNames s t).toTarget.get? :=
    h.get?_tierNames hnamed fun r => r.2.1
  unfold memberRename? sourceKey? targetKey OrderedMap.getD
  rw [hsource, htarget]

theorem mem_memberRenames {first : Text} {c c' : ClassRow} (halike : c.Alike c') {e : Entry} :
    e ∈ memberRenames (m.tierNames s t) s t (first, c) ↔
      e ∈ memberRenames (m'.tierNames s t) s t (first, c') := by
  have hsource : (m.tierNames s t).toSource.get? = (m'.tierNames s t).toSource.get? :=
    h.get?_tierNames hnamed fun r => r.1
  have htarget : (m.tierNames s t).toTarget.get? = (m'.tierNames s t).toTarget.get? :=
    h.get?_tierNames hnamed fun r => r.2.1
  have hfields : ∀ row, row ∈ c.fields ↔ row ∈ c'.fields := halike.rows .field
  have hmethods : ∀ row, row ∈ c.methods ↔ row ∈ c'.methods := halike.rows .method
  unfold memberRenames
  simp only [List.mem_append, List.mem_filterMap, halike.names, hsource, htarget, hfields, hmethods,
    h.memberRename?_eq hnamed]

theorem mem_renamesBetween {e : Entry} : e ∈ m.renamesBetween s t ↔ e ∈ m'.renamesBetween s t := by
  rw [mem_renamesBetween_iff, mem_renamesBetween_iff]
  apply or_congr
  · simp only [h.mem_classRenames hnamed]
  · constructor
    · rintro ⟨⟨first, c⟩, hc, he⟩
      obtain ⟨c', hc', halike⟩ := h.exists_get? hc
      exact ⟨(first, c'), hc', (h.mem_memberRenames hnamed halike).1 he⟩
    · rintro ⟨⟨first, c'⟩, hc', he⟩
      obtain ⟨c, hc, halike⟩ := h.symm.exists_get? hc'
      exact ⟨(first, c), hc, (h.mem_memberRenames hnamed halike.symm).2 he⟩

end Between

end Alike

/-! ## Alike mappings have the same table -/

/-- A class with both names is renamed from the one to the other. -/
theorem exists_rename_of_mem_namedPairs {m : Mapping} {s t : Nat} {source target : Text}
    (h : (source, target) ∈ m.namedPairs s t) :
    ∃ comment, Entry.ofClass source target comment ∈ m.renamesBetween s t := by
  obtain ⟨first, c, hc, hdeclared, hsource, htarget⟩ := (mem_namedPairs_iff m s t).1 h
  refine ⟨.ofText? c.comment, (mem_renamesBetween_iff m s t).2 (.inl ?_)⟩
  refine ⟨(first, source, target, c.comment), (mem_classRenames_iff m s t).2 ?_, rfl⟩
  refine ⟨c, hc, hdeclared, hsource, ?_, rfl⟩
  rw [targetName, htarget]
  rfl

namespace ConflictFree

variable {m : Mapping} {s t : Nat} (h : ConflictFree m.packages (m.renamesBetween s t))

include h

/-- Classes without a conflict have one target name each. -/
theorem functional_namedPairs : OrderedMap.Functional (m.namedPairs s t) := by
  rintro ⟨source, target⟩ hp ⟨source', target'⟩ hq hkey
  obtain ⟨comment, he⟩ := exists_rename_of_mem_namedPairs hp
  obtain ⟨comment', he'⟩ := exists_rename_of_mem_namedPairs hq
  have heq := h.sources _ he _ he' rfl hkey
  cases heq
  rfl

/-- Classes without a conflict do not share a target name. -/
theorem source_eq_of_mem_namedPairs {source source' target : Text}
    (hp : (source, target) ∈ m.namedPairs s t) (hq : (source', target) ∈ m.namedPairs s t) :
    source = source' := by
  obtain ⟨comment, he⟩ := exists_rename_of_mem_namedPairs hp
  obtain ⟨comment', he'⟩ := exists_rename_of_mem_namedPairs hq
  have heq := h.targets _ he _ he' rfl rfl
  cases heq
  rfl

end ConflictFree

/-- A rename of a mapping is that of a class or of member keys, and its comment is that of its
row. -/
theorem exists_eq_of_mem_renamesBetween {m : Mapping} {s t : Nat} {e : Entry}
    (he : e ∈ m.renamesBetween s t) :
    ∃ comment : Option Text, (∃ source target, e = .ofClass source target (.ofText? comment)) ∨
      ∃ kind k k', e = .ofMember kind (.ofKey k) (.ofKey k') (.ofText? comment) := by
  have hmember : ∀ n kind source target row,
      memberRename? n s t kind source target row = some e →
      ∃ comment : Option Text, (∃ source target, e = .ofClass source target (.ofText? comment)) ∨
        ∃ kind k k', e = .ofMember kind (.ofKey k) (.ofKey k') (.ofText? comment) := by
    intro n kind source target row hrename
    unfold memberRename? at hrename
    split at hrename
    · cases hrename
    · split at hrename
      · cases hrename
      · exact ⟨row.comment, .inr ⟨kind, _, _, (Option.some.inj hrename).symm⟩⟩
  rcases (mem_renamesBetween_iff m s t).1 he with ⟨r, -, rfl⟩ | ⟨p, -, hp⟩
  · exact ⟨r.2.2.2, .inl ⟨_, _, rfl⟩⟩
  · rcases List.mem_append.1 hp with hp | hp
    · obtain ⟨row, -, hrow⟩ := List.mem_filterMap.1 hp
      exact hmember _ _ _ _ row hrow
    · obtain ⟨row, -, hrow⟩ := List.mem_filterMap.1 hp
      exact hmember _ _ _ _ row hrow

/-- The renames of a mapping compare equal to themselves. -/
theorem same?_self_of_mem_renamesBetween {m : Mapping} {s t : Nat} {e : Entry}
    (he : e ∈ m.renamesBetween s t) : e.same? e = some true := by
  obtain ⟨comment, ⟨source, target, rfl⟩ | ⟨kind, k, k', rfl⟩⟩ := exists_eq_of_mem_renamesBetween he
  · simp [Entry.same?, Entry.sameSymbol, Entry.comment]
  · simp [Entry.same?, Entry.sameSymbol, Entry.comment]

theorem renames_eq_of_namespaces {m : Mapping} (h : m.namespaces ≠ []) (source target : Option Text) :
    m.renames source target =
      (fun tiers => m.renamesBetween tiers.1 tiers.2) <$> m.tiers source target := by
  have hnot : (m.isTiered && m.namespaces.isEmpty) = false := by simp [h]
  unfold renames
  cases m.tiers source target with
  | error f => rfl
  | ok tiers =>
    show (if (m.isTiered && m.namespaces.isEmpty) = true then _ else _) = _
    rw [hnot]
    rfl

/-- **Without conflicts, mappings that are alike make one table.** -/
theorem Alike.exists_table {m m' : Mapping} (h : m.Alike m') (hne : m.namespaces ≠ [])
    {source target : Option Text} {renames : List Entry}
    (hrenames : m.renames source target = .ok renames)
    (hfree : ConflictFree m.packages renames) :
    ∃ table table', m.table source target = .ok table ∧ m'.table source target = .ok table' ∧
      table.SameLookups table' ∧ table.same? table' = some true := by
  have htiers : m'.tiers source target = m.tiers source target := by
    unfold tiers tierIndex isTiered
    rw [h.format, h.namespaces]
  rw [renames_eq_of_namespaces hne] at hrenames
  cases hchosen : m.tiers source target with
  | error f => rw [hchosen] at hrenames; cases hrenames
  | ok chosen =>
    obtain ⟨s, t⟩ := chosen
    rw [hchosen] at hrenames
    obtain rfl : m.renamesBetween s t = renames := Except.ok.inj hrenames
    have hmem : ∀ e, e ∈ m.renamesBetween s t ↔ e ∈ m'.renamesBetween s t :=
      fun e => h.mem_renamesBetween hfree.functional_namedPairs
    have hlookups := hfree.sameLookups h.packages hmem
    refine ⟨_, _, ?_, ?_, hlookups, hlookups.same? ?_⟩
    · rw [table_eq, renames_eq_of_namespaces hne, hchosen]
      rfl
    · rw [table_eq, renames_eq_of_namespaces (h.namespaces ▸ hne), htiers, hchosen]
      rfl
    · intro e he
      exact same?_self_of_mem_renamesBetween (Table.mem_renames_of_mem_values he)

end Mapping

end Renaming
