import Renaming.Proofs.Table.PassOn

/-!
# `Proofs/Table/Entries` — the entries of a composition

Entries are kept by what they lead to and found by what they come from, and both ways are lists of
pairs written one after the other. For the index by source that is `bySource_eq`. For a composition
it is `compose_entries`: one entry for each class and each readable member of the first table, in
this order, with both members of the pair read off the entry itself.
-/

set_option autoImplicit false

namespace Renaming

/-- The entry under the key by which a table keeps it. -/
def Entry.keyed (e : Entry) : (SymbolKind × Text) × Entry := ((e.kind, e.targetKey), e)

namespace Table

/-! ## The index by source -/

theorem bySource_eq (t : Table) :
    t.bySource = .ofList (t.entries.values.flatMap fun e =>
      (sourceKeys e).map fun k => (k, e)) := by
  unfold bySource OrderedMap.ofList
  rw [List.foldl_flatMap]
  congr 1
  funext m e
  rw [List.foldl_map]

theorem mem_sourcePairs_iff {l : List Entry} {k : SymbolKind × Text} {e : Entry} :
    (k, e) ∈ (l.flatMap fun e => (sourceKeys e).map fun k => (k, e)) ↔ e ∈ l ∧ k ∈ sourceKeys e := by
  rw [List.mem_flatMap]
  constructor
  · rintro ⟨e', he', hk⟩
    obtain ⟨k', hk', hpair⟩ := List.mem_map.1 hk
    cases hpair
    exact ⟨he', hk'⟩
  · rintro ⟨he, hk⟩
    exact ⟨e, he, List.mem_map.2 ⟨k, hk, rfl⟩⟩

/-- An entry is found by a key that it has. -/
theorem mem_of_get?_bySource {t : Table} {k : SymbolKind × Text} {e : Entry}
    (h : t.bySource.get? k = some e) : e ∈ t.entries.values ∧ k ∈ sourceKeys e := by
  rw [bySource_eq] at h
  exact mem_sourcePairs_iff.1 (OrderedMap.mem_of_get?_ofList h)

/-- An entry is found by its key, and that of a field by its key with the signature, too. -/
theorem mem_sourceKeys {e : Entry} {k : SymbolKind × Text} (hk : k ∈ sourceKeys e) :
    k = (e.kind, e.sourceKey) ∨
      e.kind = .ofField ∧ ∃ d, k = (.ofField, e.sourceKey ++ ' ' :: d) := by
  unfold sourceKeys at hk
  rcases List.mem_cons.1 hk with hk | hk
  · exact .inl hk
  · right
    split at hk
    · obtain ⟨d, -, rfl⟩ := List.mem_map.1 hk
      exact ⟨rfl, d.written, rfl⟩
    · cases hk

/-- No two entries of the table are found by one key. -/
def DistinctSources (t : Table) : Prop :=
  ∀ e ∈ t.entries.values, ∀ e' ∈ t.entries.values,
    ∀ k, k ∈ sourceKeys e → k ∈ sourceKeys e' → e = e'

theorem get?_bySource_iff {t : Table} (h : t.DistinctSources) {k : SymbolKind × Text} {e : Entry} :
    t.bySource.get? k = some e ↔ e ∈ t.entries.values ∧ k ∈ sourceKeys e := by
  rw [bySource_eq, OrderedMap.get?_ofList_iff, mem_sourcePairs_iff]
  rintro ⟨k, e⟩ hp ⟨k', e'⟩ hq hkey
  obtain rfl : k = k' := hkey
  obtain ⟨he, hk⟩ := mem_sourcePairs_iff.1 hp
  obtain ⟨he', hk'⟩ := mem_sourcePairs_iff.1 hq
  exact h e he e' he' k hk hk'

/-! ## What a composition writes -/

variable (first second : Table)

/-- The entry of a class on its way through both tables. -/
def composedClass (p : Text × Text) : Entry :=
  let comments := classComments first.bySource second.bySource p.1 p.2
  .ofClass p.1 (second.mapNested p.2) (mergeComments comments.1 comments.2)

/-- The entry of a member on its way through both tables. -/
def composedMember (kind : MemberKind) (k : MemberKey) (mid : Text) : Entry :=
  match kind with
  | .field => composedField first second first.bySource second.bySource k mid
  | .method => composedMethod first second first.bySource second.bySource k mid

/-- The entries of the members of the first table. -/
def composedMembers (kind : MemberKind) : List Entry :=
  (kind.names first).toList.filterMap fun p =>
    (kind.read p.1).toOption.map fun k => composedMember first second kind k p.2

/-- The entries of a composition, in the order in which they are written. -/
def composedEntries : List Entry :=
  first.classes.toList.map (composedClass first second) ++ composedMembers first second .field ++
    composedMembers first second .method

/-- The signature that the entry of a member records. -/
def signatureOf (t : Table) (kind : MemberKind) (k : MemberKey) : Option Signature :=
  match kind with
  | .field => fieldSignature t.bySource k
  | .method => k.descriptor.map .text

def memberComment (t : Table) (kind : MemberKind) (k : MemberKey) : Datum :=
  match kind with
  | .field => commentOf (t.bySource.ofField? k.owner k.name k.descriptor)
  | .method => commentOf (t.bySource.ofMethod? k.owner k.name k.descriptor)

/-- The entry of a member is made of the member and of what the first table passes on. -/
theorem composedMember_eq (kind : MemberKind) (k : MemberKey) (mid : Text) :
    composedMember first second kind k mid =
      .ofMember kind ⟨k.owner, k.name, first.signatureOf kind k⟩
        ⟨second.mapNested (first.passOn kind k mid).owner,
          second.newName kind (first.passOn kind k mid),
          ((first.passOn kind k mid).descriptor.map second.renameDescriptor).map .text⟩
        (mergeComments (first.memberComment kind k)
          (second.memberComment kind (first.passOn kind k mid))) := by
  cases kind with
  | field =>
    rw [newName_field]
    rfl
  | method =>
    rw [newName_method]
    rfl

theorem composeClasses_entries (r : Table) :
    (composeClasses first second first.bySource second.bySource r).entries =
      r.entries.insertAll ((first.classes.toList.map (composedClass first second)).map
        Entry.keyed) := by
  unfold composeClasses
  rw [foldl_insertOne Table.entries (fun p => some (composedClass first second p).keyed)
    fun _ _ _ => rfl, List.filterMap_eq_map', List.map_map]
  rfl

theorem composeFields_entries (r : Table) :
    (composeFields first second first.bySource second.bySource r).entries =
      r.entries.insertAll ((composedMembers first second .field).map Entry.keyed) := by
  unfold composeFields
  rw [foldl_insertOne Table.entries (fun p => (((MemberKey.parse p.1).toOption.map fun k =>
    composedMember first second .field k p.2).map Entry.keyed))]
  · rw [composedMembers, List.map_filterMap]
    rfl
  · intro r p _
    cases h : MemberKey.parse p.1 <;> rfl

theorem composeMethods_entries (r : Table) :
    (composeMethods first second first.bySource second.bySource r).entries =
      r.entries.insertAll ((composedMembers first second .method).map Entry.keyed) := by
  unfold composeMethods
  rw [foldl_insertOne Table.entries (fun p => (((MemberKey.parseMethod p.1).toOption.map fun k =>
    composedMember first second .method k p.2).map Entry.keyed))]
  · rw [composedMembers, List.map_filterMap]
    rfl
  · intro r p _
    cases h : MemberKey.parseMethod p.1 <;> rfl

/-- **The entries of a composition.** -/
theorem compose_entries :
    (first.compose second).entries = .ofList ((composedEntries first second).map Entry.keyed) := by
  show (composeMethods first second first.bySource second.bySource _).entries = _
  rw [composeMethods_entries, composeFields_entries, composeClasses_entries,
    composePackages_keeps _ _ _ Table.entries fun _ _ _ => rfl, composedEntries, List.map_append,
    List.map_append, OrderedMap.ofList_eq, OrderedMap.insertAll_append,
    OrderedMap.insertAll_append]
  rfl

end Table

end Renaming
