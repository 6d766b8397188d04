import Renaming.Proofs.Table.Entries

/-!
# `Proofs/Table/SourceIndex` — names and entries side by side

A rename is written to two places: to the map of its kind, under its source, where a later rename
overwrites an earlier one, and among the entries, under its target, where it also overwrites what
was there but takes over its place. A look-up by source in the map finds the last rename of the
symbol; a look-up among the entries finds, of the renames that were not overwritten, the one whose
target was reached last. These are two orders, and they agree (`InStep`) on a symbol of which the
renames say one thing (`Steady`):

> either they all give it one name, or the last of them is also the last to reach its target, and
> none says anything else once this target was reached for the first time.
-/

set_option autoImplicit false

namespace Renaming

namespace SymbolKind

/-- The new names of the symbols of a kind, by their keys. -/
def names : SymbolKind → Table → OrderedMap Text Text
  | ofClass => Table.classes
  | ofField => Table.fields
  | ofMethod => Table.methods

end SymbolKind

theorem MemberKind.names_symbol (kind : MemberKind) : kind.symbol.names = kind.names := by
  cases kind <;> rfl

/-- What an entry says about the symbols of a kind: the key of one and its new name. -/
def Entry.nameFor (kind : SymbolKind) (e : Entry) : Option (Text × Text) :=
  if e.kind = kind then some (e.sourceKey, e.targetName) else none

theorem Entry.nameFor_eq_some_iff {kind : SymbolKind} {e : Entry} {key name : Text} :
    e.nameFor kind = some (key, name) ↔ e.kind = kind ∧ e.sourceKey = key ∧ e.targetName = name := by
  unfold Entry.nameFor
  split
  · rename_i hkind
    rw [Option.some.injEq, Prod.mk.injEq]
    exact (and_iff_right hkind).symm
  · rename_i hkind
    exact iff_of_false nofun fun h => hkind h.1

namespace Table

/-! ## Writing renames -/

/-- Writes a rename, as a name of its kind and among the entries. -/
def write (t : Table) (e : Entry) : Table :=
  match e with
  | .ofClass source target comment => t.addClass source target comment
  | .ofMember .field .. => (t.addField e.sourceKey e.targetName).addEntry e
  | .ofMember .method .. => (t.addMethod e.sourceKey e.targetName).addEntry e

theorem write_entries (t : Table) (e : Entry) :
    (t.write e).entries = t.entries.insert e.keyed.1 e := by
  obtain _ | ⟨_ | _, _, _, _⟩ := e <;> rfl

theorem write_names (t : Table) (e : Entry) (kind : SymbolKind) :
    kind.names (t.write e) = (kind.names t).insertAll (e.nameFor kind).toList := by
  obtain _ | ⟨_ | _, _, _, _⟩ := e <;> cases kind <;> rfl

theorem write_packages (t : Table) (e : Entry) : (t.write e).packages = t.packages := by
  obtain _ | ⟨_ | _, _, _, _⟩ := e <;> rfl

theorem write_excluded (t : Table) (e : Entry) : (t.write e).excluded = t.excluded := by
  obtain _ | ⟨_ | _, _, _, _⟩ := e <;> rfl

/-- The table of packages and renames, written in their order. -/
def ofRenames (packages : OrderedMap Text Text) (renames : List Entry) : Table :=
  renames.foldl write { empty with packages := packages }

variable {packages : OrderedMap Text Text} {renames : List Entry}

theorem ofRenames_entries :
    (ofRenames packages renames).entries = .ofList (renames.map Entry.keyed) := by
  unfold ofRenames
  rw [foldl_insertOne Table.entries (fun e => some e.keyed) fun r e _ => write_entries r e,
    List.filterMap_eq_map']
  rfl

theorem ofRenames_names (kind : SymbolKind) :
    kind.names (ofRenames packages renames) = .ofList (renames.filterMap (Entry.nameFor kind)) := by
  unfold ofRenames
  rw [foldl_insertOne kind.names _ fun r e _ => write_names r e kind]
  cases kind <;> rfl

theorem ofRenames_packages : (ofRenames packages renames).packages = packages :=
  foldl_keeps Table.packages write_packages _ _

theorem ofRenames_isExcluded (name : Text) : (ofRenames packages renames).isExcluded name = false := by
  have hexcluded : (ofRenames packages renames).excluded = [] :=
    foldl_keeps Table.excluded write_excluded _ _
  rw [isExcluded, hexcluded]
  rfl

/-! ## What is found by a source key -/

/-- The renames of a symbol say one thing. -/
inductive Steady (renames : List Entry) (x : SymbolKind × Text) (name : Text) : Prop
  /-- All of them give it this name. -/
  | agreed (hname : ∀ e ∈ renames, x ∈ sourceKeys e → e.targetName = name)
  /-- One of them, `last`, is the last to reach its target, and none gives another name after
  `before`, where this target is not reached yet. -/
  | settled {before between after : List Entry} {last : Entry}
    (hrenames : renames = before ++ (between ++ last :: after)) (hlast : x ∈ sourceKeys last)
    (htarget : ∀ e ∈ before ++ after, e.keyed.1 ≠ last.keyed.1)
    (hname : ∀ e ∈ between ++ last :: after, x ∈ sourceKeys e → e.targetName = name)

theorem kind_of_mem_sourceKeys {e : Entry} {x : SymbolKind × Text} (h : x ∈ sourceKeys e) :
    e.kind = x.1 := by
  rcases mem_sourceKeys h with rfl | ⟨hkind, d, rfl⟩
  · rfl
  · exact hkind

theorem keyed_of_mem_entries {p : (SymbolKind × Text) × Entry}
    (h : p ∈ (ofRenames packages renames).entries.toList) : p.2 ∈ renames ∧ p.2.keyed = p := by
  obtain ⟨k, e⟩ := p
  have hget := OrderedMap.get?_eq_some_iff.2 h
  rw [ofRenames_entries] at hget
  obtain ⟨e', he', hkeyed⟩ := List.mem_map.1 (OrderedMap.mem_of_get?_ofList hget)
  cases hkeyed
  exact ⟨he', rfl⟩

theorem mem_renames_of_mem_values {e : Entry} (h : e ∈ (ofRenames packages renames).entries.values) :
    e ∈ renames := by
  obtain ⟨p, hp, rfl⟩ := List.mem_map.1 h
  exact (keyed_of_mem_entries hp).1

/-- The entry is the last of the list to lead to its target. -/
def IsLast (renames : List Entry) (e : Entry) : Prop :=
  ∃ before after, renames = before ++ e :: after ∧ ∀ e' ∈ after, e'.keyed.1 ≠ e.keyed.1

/-- **The last rename to reach a target is the one that stays there.** -/
theorem get?_entries_ofRenames_iff {e : Entry} :
    (ofRenames packages renames).entries.get? e.keyed.1 = some e ↔ IsLast renames e := by
  rw [ofRenames_entries, OrderedMap.get?_ofList_eq_some_iff]
  constructor
  · rintro ⟨before, after, hsplit, hafter⟩
    obtain ⟨before', rest, rfl, -, hrest⟩ := List.map_eq_append_iff.1 hsplit
    obtain ⟨e', after', rfl, hkeyed, rfl⟩ := List.map_eq_cons_iff.1 hrest
    obtain rfl : e' = e := congrArg Prod.snd hkeyed
    exact ⟨before', after', rfl, fun e'' he'' => hafter _ (List.mem_map_of_mem he'')⟩
  · rintro ⟨before, after, rfl, hafter⟩
    refine ⟨before.map Entry.keyed, after.map Entry.keyed, List.map_append, ?_⟩
    rw [List.forall_mem_map]
    exact hafter

theorem mem_values_of_isLast {e : Entry} (h : IsLast renames e) :
    e ∈ (ofRenames packages renames).entries.values :=
  OrderedMap.mem_values_of_get? (get?_entries_ofRenames_iff.2 h)

/-- Targets that are reached first stay in front. -/
theorem exists_values_ofRenames (packages : OrderedMap Text Text) (before rest : List Entry) :
    ∃ old new, (ofRenames packages (before ++ rest)).entries.values = old ++ new ∧
      (∀ e ∈ old, ∃ e' ∈ before, e'.keyed.1 = e.keyed.1) ∧ ∀ e ∈ new, e ∈ rest := by
  obtain ⟨old, new, hsplit, hold, hnew⟩ := OrderedMap.exists_toList_insertAll
    (.ofList (before.map Entry.keyed)) (rest.map Entry.keyed)
  have hentries : (ofRenames packages (before ++ rest)).entries.toList = old ++ new := by
    rw [ofRenames_entries, List.map_append, OrderedMap.ofList_eq, OrderedMap.insertAll_append]
    exact hsplit
  refine ⟨old.map Prod.snd, new.map Prod.snd, ?_, ?_, ?_⟩
  · rw [OrderedMap.values, hentries, List.map_append]
  · intro e he
    obtain ⟨p, hp, rfl⟩ := List.mem_map.1 he
    have hkeyed : p.2.keyed = p :=
      (keyed_of_mem_entries (hentries ▸ List.mem_append_left _ hp)).2
    have hkey : p.1 ∈ (OrderedMap.ofList (before.map Entry.keyed)).keys := by
      rw [← hold]
      exact List.mem_map_of_mem hp
    obtain ⟨e, he⟩ := Option.isSome_iff_exists.1 (OrderedMap.mem_keys_iff.1 hkey)
    obtain ⟨e', he', hkeyed'⟩ := List.mem_map.1 (OrderedMap.mem_of_get?_ofList he)
    exact ⟨e', he', by rw [hkeyed', hkeyed]⟩
  · intro e he
    obtain ⟨p, hp, rfl⟩ := List.mem_map.1 he
    obtain ⟨e, hmem, rfl⟩ := List.mem_map.1 (hnew p hp)
    exact hmem

variable {x : SymbolKind × Text} {name : Text}

/-- What is found among the entries gives the name on which the renames have settled. -/
theorem Steady.targetName_eq (h : Steady renames x name) {e : Entry}
    (he : (ofRenames packages renames).bySource.get? x = some e) : e.targetName = name := by
  obtain ⟨hvalue, hkey⟩ := mem_of_get?_bySource he
  cases h with
  | agreed hname => exact hname e (mem_renames_of_mem_values hvalue) hkey
  | @settled before between after last hrenames hlast htarget hname =>
    subst hrenames
    obtain ⟨old, new, hvalues, hold, hnew⟩ :=
      exists_values_ofRenames packages before (between ++ last :: after)
    have hmem : last ∈ new := by
      have hstays : last ∈ (ofRenames packages
          (before ++ (between ++ last :: after))).entries.values :=
        mem_values_of_isLast ⟨before ++ between, after, (List.append_assoc ..).symm,
          fun e he => htarget e (List.mem_append_right _ he)⟩
      rw [hvalues] at hstays
      apply (List.mem_append.1 hstays).resolve_left
      intro hfront
      obtain ⟨e', he', hkeyed⟩ := hold last hfront
      exact htarget e' (List.mem_append_left _ he') hkeyed
    obtain ⟨e', he', hget⟩ := OrderedMap.exists_get?_ofList_append
      (old.flatMap fun e => (sourceKeys e).map fun k => (k, e)) (mem_sourcePairs_iff.2 ⟨hmem, hlast⟩)
    rw [bySource_eq, hvalues, List.flatMap_append, hget, Option.some.injEq] at he
    subst he
    exact hname e' (hnew e' (mem_sourcePairs_iff.1 he').1) hkey

/-- Among the names, whatever was said of a symbol at first does not count. -/
theorem get?_names_append (before : List Entry) {rest : List Entry}
    (hown : ∀ e ∈ rest, x ∈ sourceKeys e → e.sourceKey = x.2) (hfound : ∃ e ∈ rest, x ∈ sourceKeys e)
    (hname : ∀ e ∈ rest, x ∈ sourceKeys e → e.targetName = name) :
    (x.1.names (ofRenames packages (before ++ rest))).get? x.2 = some name := by
  obtain ⟨e, he, hkey⟩ := hfound
  have hpair : (x.2, e.targetName) ∈ rest.filterMap (Entry.nameFor x.1) := by
    refine List.mem_filterMap.2 ⟨e, he, Entry.nameFor_eq_some_iff.2 ⟨?_, hown e he hkey, rfl⟩⟩
    exact kind_of_mem_sourceKeys hkey
  obtain ⟨name', hname', hget⟩ := OrderedMap.exists_get?_ofList_append
    (before.filterMap (Entry.nameFor x.1)) hpair
  rw [ofRenames_names, List.filterMap_append, hget]
  obtain ⟨e', he', hfor⟩ := List.mem_filterMap.1 hname'
  obtain ⟨hkind, hsource, rfl⟩ := Entry.nameFor_eq_some_iff.1 hfor
  have hx : x = (e'.kind, e'.sourceKey) := Prod.ext hkind.symm hsource.symm
  rw [hname e' he' (hx ▸ List.mem_cons_self)]

/-- What is found among the names is this name, too, if there is something to be found. -/
theorem Steady.get?_names (h : Steady renames x name)
    (hown : ∀ e ∈ renames, x ∈ sourceKeys e → e.sourceKey = x.2)
    (hfound : ∃ e ∈ renames, x ∈ sourceKeys e) :
    (x.1.names (ofRenames packages renames)).get? x.2 = some name := by
  cases h with
  | agreed hname => exact get?_names_append [] hown hfound hname
  | @settled before between after last hrenames hlast htarget hname =>
    subst hrenames
    apply get?_names_append before _ _ hname
    · exact fun e he => hown e (List.mem_append_right _ he)
    · exact ⟨last, List.mem_append_right _ List.mem_cons_self, hlast⟩

/-! ## Both look-ups -/

/-- No field is called like another one with a blank and more behind. The text of a key does not
show where such a name ends and a descriptor begins. -/
def Apart (renames : List Entry) (key : Text) : Prop :=
  ∀ e ∈ renames, e.kind = .ofField →
    ¬ key ++ [' '] <+: e.sourceKey ∧ ¬ e.sourceKey ++ [' '] <+: key

instance (renames : List Entry) (key : Text) : Decidable (Apart renames key) :=
  List.decidableBAll _ renames

/-- An entry that is found by its source gives the name to which the table changes it, wherever the
renames are steady. Fields change by their name alone, so with a descriptor there have to be two
steady symbols, the field of any type and the one of this type, and one name for both. -/
structure InStep (t : Table) (renames : List Entry) : Prop where
  classes {source name : Text} {e : Entry} (hsteady : Steady renames (.ofClass, source) name)
    (he : t.findClassEntry? source = some e) :
    e.targetName = name ∧ t.classes.get? source = some name
  fields {owner field : Text} {descriptor : Option Text} {name : Text} {e : Entry}
    (hapart : Apart renames (bareKey owner field))
    (hsteady : Steady renames (.ofField, bareKey owner field) name)
    (htyped : ∀ d ∈ descriptor, Steady renames (.ofField, qualifiedKey owner field d) name)
    (he : t.findFieldEntry? owner field descriptor = some e) :
    e.targetName = name ∧ t.mapField owner field descriptor = name
  methods {owner method : Text} {descriptor : Option Text} {name : Text} {e : Entry}
    (hmethod : isConstructor method = false)
    (hsteady : Steady renames (.ofMethod, (MemberKey.mk owner method descriptor).format) name)
    (he : t.findMethodEntry? owner method descriptor = some e) :
    e.targetName = name ∧ t.mapMethod owner method descriptor = name

/-- A class or a method has one key, and its look-ups are in step. -/
theorem Steady.inStep {kind : SymbolKind} {key : Text} (h : Steady renames (kind, key) name)
    (hkind : kind ≠ .ofField) {e : Entry}
    (he : (ofRenames packages renames).bySource.get? (kind, key) = some e) :
    e.targetName = name ∧ (kind.names (ofRenames packages renames)).get? key = some name := by
  refine ⟨h.targetName_eq he, h.get?_names ?_ ?_⟩
  · intro e' _ hkey
    rcases mem_sourceKeys hkey with heq | ⟨-, d, heq⟩
    · exact (congrArg Prod.snd heq).symm
    · exact absurd (congrArg Prod.fst heq) hkind
  · obtain ⟨hvalue, hkey⟩ := mem_of_get?_bySource he
    exact ⟨e, mem_renames_of_mem_values hvalue, hkey⟩

section Field

variable {key : Text} (hapart : Apart renames key) {e : Entry} (he : e ∈ renames)

include hapart he

theorem Apart.sourceKey_ne (hkind : e.kind = .ofField) (d : Text) :
    e.sourceKey ≠ key ++ ' ' :: d := by
  intro heq
  apply (hapart e he hkind).1
  rw [heq]
  exact ⟨d, List.append_assoc _ _ _⟩

theorem Apart.key_ne (hkind : e.kind = .ofField) (d : Text) : key ≠ e.sourceKey ++ ' ' :: d := by
  intro heq
  apply (hapart e he hkind).2
  rw [heq]
  exact ⟨d, List.append_assoc _ _ _⟩

/-- What is found by the key of a field is this field. -/
theorem Apart.sourceKey_eq (hkey : (.ofField, key) ∈ sourceKeys e) : e.sourceKey = key := by
  rcases mem_sourceKeys hkey with heq | ⟨hkind, d, heq⟩
  · exact (congrArg Prod.snd heq).symm
  · exact absurd (congrArg Prod.snd heq) (hapart.key_ne he hkind d)

/-- What is found by the key of a field with a descriptor is this field, too. -/
theorem Apart.sourceKey_eq_of_typed {d : Text} (hkey : (.ofField, key ++ ' ' :: d) ∈ sourceKeys e) :
    e.sourceKey = key := by
  have hkind : e.kind = .ofField := kind_of_mem_sourceKeys hkey
  rcases mem_sourceKeys hkey with heq | ⟨-, d', heq⟩
  · exact absurd (congrArg Prod.snd heq).symm (hapart.sourceKey_ne he hkind d)
  · -- either both end at the same blank, or one goes on behind the blank of the other
    rcases List.append_eq_append_iff.1 (congrArg Prod.snd heq) with
      ⟨_ | ⟨c, rest⟩, hsource, hrest⟩ | ⟨_ | ⟨c, rest⟩, hsource, hrest⟩
    · rw [hsource, List.append_nil]
    · obtain rfl : ' ' = c := (List.cons.inj hrest).1
      exact absurd hsource (hapart.sourceKey_ne he hkind rest)
    · rw [hsource, List.append_nil]
    · obtain rfl : ' ' = c := (List.cons.inj hrest).1
      exact absurd hsource (hapart.key_ne he hkind rest)

end Field

theorem get?_of_findFieldEntry? {t : Table} {owner field : Text} {descriptor : Option Text}
    {e : Entry} (he : t.findFieldEntry? owner field descriptor = some e) :
    (∃ d ∈ descriptor, t.bySource.get? (.ofField, qualifiedKey owner field d) = some e) ∨
      t.bySource.get? (.ofField, bareKey owner field) = some e := by
  unfold findFieldEntry? SourceIndex.ofField? at he
  split at he
  · rename_i e' htyped
    obtain ⟨d, hd, hget⟩ := Option.bind_eq_some_iff.1 htyped
    exact .inl ⟨d, hd, hget.trans he⟩
  · exact .inr he

/-- A field that is found, with a descriptor or without, is a field of that name. -/
theorem Apart.mem_of_findFieldEntry? {owner field : Text} {descriptor : Option Text}
    (hapart : Apart renames (bareKey owner field)) {e : Entry}
    (he : findFieldEntry? (ofRenames packages renames) owner field descriptor = some e) :
    e ∈ renames ∧ (.ofField, bareKey owner field) ∈ sourceKeys e := by
  rcases get?_of_findFieldEntry? he with ⟨d, -, hget⟩ | hget
  · obtain ⟨hvalue, hkey⟩ := mem_of_get?_bySource hget
    have hmem := mem_renames_of_mem_values hvalue
    have hkind : e.kind = .ofField := kind_of_mem_sourceKeys hkey
    rw [← hapart.sourceKey_eq_of_typed hmem hkey, ← hkind]
    exact ⟨hmem, List.mem_cons_self⟩
  · obtain ⟨hvalue, hkey⟩ := mem_of_get?_bySource hget
    exact ⟨mem_renames_of_mem_values hvalue, hkey⟩

/-- Nothing is found among the names by a key with a descriptor. -/
theorem Apart.get?_fields_typed {key : Text} (hapart : Apart renames key) (d : Text) :
    (ofRenames packages renames).fields.get? (key ++ ' ' :: d) = none := by
  rw [Option.eq_none_iff_forall_ne_some]
  intro name hname
  change (SymbolKind.ofField.names (ofRenames packages renames)).get? _ = some name at hname
  rw [ofRenames_names] at hname
  obtain ⟨e, he, hfor⟩ := List.mem_filterMap.1 (OrderedMap.mem_of_get?_ofList hname)
  obtain ⟨hkind, hkey, -⟩ := Entry.nameFor_eq_some_iff.1 hfor
  exact hapart.sourceKey_ne he hkind d hkey

/-- So a field changes as its name alone says. -/
theorem Apart.mapField_eq {owner field : Text} (hapart : Apart renames (bareKey owner field))
    (descriptor : Option Text) :
    (ofRenames packages renames).mapField owner field descriptor =
      (ofRenames packages renames).fields.getD (bareKey owner field) field := by
  have htyped : (descriptor.bind fun d =>
      (ofRenames packages renames).fields.get? (qualifiedKey owner field d)) = none := by
    rw [Option.bind_eq_none_iff]
    exact fun d _ => hapart.get?_fields_typed d
  rw [mapField, ofRenames_isExcluded, findField?, htyped]
  rfl

/-- **The two ways to look up a symbol are in step.** -/
theorem inStep_ofRenames : (ofRenames packages renames).InStep renames where
  classes hsteady he := hsteady.inStep (by decide) he
  fields {owner field descriptor name e} hapart hsteady htyped he := by
    have hname : (ofRenames packages renames).fields.get? (bareKey owner field) = some name :=
      hsteady.get?_names (fun e' he' hkey => hapart.sourceKey_eq he' hkey)
        ⟨e, hapart.mem_of_findFieldEntry? he⟩
    constructor
    · rcases get?_of_findFieldEntry? he with ⟨d, hd, hget⟩ | hget
      · exact (htyped d hd).targetName_eq hget
      · exact hsteady.targetName_eq hget
    · rw [hapart.mapField_eq, OrderedMap.getD]
      exact congrArg (Option.getD · field) hname
  methods {owner method descriptor name e} hmethod hsteady he := by
    obtain ⟨hentry, hname⟩ := hsteady.inStep (by decide) he
    refine ⟨hentry, ?_⟩
    rw [mapMethod, hmethod, ofRenames_isExcluded, OrderedMap.getD]
    exact congrArg (Option.getD · method) hname

end Table

end Renaming
