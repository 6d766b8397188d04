import Renaming.Proofs.Table.Continue
import Renaming.Proofs.Table.Entries

/-!
# `Proofs/Table/Follow` — entries that follow the classes of their table

The entry of a member says what becomes of its owner and of the classes in its signature. The table
says it as well, when it is asked about these classes one by one. An entry *follows* the classes of
its table where both say the same.

A composition carries owners and signatures through both of its tables, but it has class entries for
the classes of the first table only. So its entries follow

* in their owner, exactly when the second table goes on where the first stops (`Continues`);
* in their signature, when the second table goes on with just the name that the first hands over
  (`ContinuesExactly`), since in signatures no class stands for the ones around it.

For signatures this is all there is to it as long as no new name ends a class early.
-/

set_option autoImplicit false

namespace Renaming

/-! ## Renames that agree on a descriptor -/

namespace Descriptor

/-- Two renames that end no class early agree on a descriptor only if they agree on its classes. -/
theorem rename_eq_rename_iff {f g : Text → Text} {d : Text}
    (hf : ∀ name ∈ classNames d, ';' ∉ f name) (hg : ∀ name ∈ classNames d, ';' ∉ g name) :
    rename f d = rename g d ↔ ∀ name ∈ classNames d, f name = g name := by
  constructor
  · intro h name hname
    have hpieces := congrArg pieces h
    rw [pieces_rename hf, pieces_rename hg, List.map_inj_left] at hpieces
    exact Piece.className.inj (hpieces _ (className_mem_iff.1 hname))
  · exact rename_congr

end Descriptor

namespace Signature

/-- The rename ends no class of the signature early. -/
def KeepsClosed (f : Text → Text) : Signature → Prop
  | text d => ∀ name ∈ Descriptor.classNames d, ';' ∉ f name
  | joined _ _ => True

end Signature

namespace Table

variable {first second : Table}

/-! ## Entries and the classes of their table -/

/-- The owner of the member changes as this class does in the table. -/
def OwnerFollows (t : Table) (source target : Identity) : Prop :=
  target.owner = t.mapClass source.owner

/-- The signature of the member changes as the classes in it do in the table. -/
def SignatureFollows (t : Table) (source target : Identity) : Prop :=
  target.signature = source.signature.map fun x => .text (x.rename t.renameClass)

instance (t : Table) (source target : Identity) : Decidable (t.OwnerFollows source target) :=
  inferInstanceAs (Decidable (_ = _))

/-! ## Classes of signatures -/

/-- The second table goes on with just the name that the first hands over: it has an entry for this
very name or leaves it alone, and it has none for a class that the first has none for. -/
structure ContinuesExactly (first second : Table) (name : Text) : Prop where
  renamed : ∀ mid, first.classes.get? name = some mid →
    mid ∈ second.classes.keys ∨ second.mapNested mid = mid
  kept : name ∉ first.classes.keys → second.renameClass name = name

theorem renameClass_of_get? {t : Table} {name target : Text}
    (h : t.classes.get? name = some target) : t.renameClass name = target := by
  rw [renameClass, OrderedMap.getD, h, Option.getD_some]

theorem renameClass_of_notMem {t : Table} {name : Text} (h : name ∉ t.classes.keys) :
    t.renameClass name = name := by
  rw [renameClass, OrderedMap.getD, OrderedMap.get?_eq_none_iff.2 h, Option.getD_none]

theorem renameClass_eq_mapNested_iff {t : Table} {name : Text} :
    t.renameClass name = t.mapNested name ↔ name ∈ t.classes.keys ∨ t.mapNested name = name := by
  by_cases hkey : name ∈ t.classes.keys
  · obtain ⟨target, htarget⟩ := Option.isSome_iff_exists.1 (OrderedMap.mem_keys_iff.1 hkey)
    have hnested : t.mapNested name = target := resolveNested_of_find htarget
    rw [renameClass_of_get? htarget, hnested]
    exact iff_of_true rfl (.inl hkey)
  · rw [renameClass_of_notMem hkey, or_iff_right hkey]
    exact eq_comm

theorem notMem_renameClass {t : Table} (ht : t.SemicolonFree) {name : Text} (h : ';' ∉ name) :
    ';' ∉ t.renameClass name := by
  unfold renameClass OrderedMap.getD
  cases htarget : t.classes.get? name with
  | none => exact h
  | some target => exact ht target (OrderedMap.mem_values_of_get? htarget)

theorem renameClass_compose_iff {name : Text} :
    (first.compose second).renameClass name = second.renameClass (first.renameClass name) ↔
      ContinuesExactly first second name := by
  cases hfirst : first.classes.get? name with
  | some mid =>
    have hcompose : (first.compose second).renameClass name = second.mapNested mid := by
      apply renameClass_of_get?
      rw [get?_compose_classes, hfirst, Option.map_some]
    rw [hcompose, renameClass_of_get? hfirst, eq_comm, renameClass_eq_mapNested_iff]
    constructor
    · intro h
      refine ⟨fun mid' hmid' => ?_, fun hkey => ?_⟩
      · obtain rfl := Option.some.inj (hfirst.symm.trans hmid')
        exact h
      · rw [← OrderedMap.get?_eq_none_iff, hfirst] at hkey
        cases hkey
    · intro h
      exact h.renamed mid hfirst
  | none =>
    have hkey : name ∉ first.classes.keys := OrderedMap.get?_eq_none_iff.1 hfirst
    have hcompose : (first.compose second).renameClass name = name := by
      apply renameClass_of_notMem
      rw [← OrderedMap.get?_eq_none_iff, get?_compose_classes, hfirst, Option.map_none]
    rw [hcompose, renameClass_of_notMem hkey, eq_comm]
    constructor
    · intro h
      refine ⟨fun mid hmid => ?_, fun _ => h⟩
      rw [hfirst] at hmid
      cases hmid
    · intro h
      exact h.kept hkey

/-- No class of a composition gets a name that ends early, if the second table has no such name and
the first puts none into the way. -/
theorem notMem_renameClass_compose (h₂ : second.SemicolonFree) {name : Text} (hname : ';' ∉ name)
    (h : ';' ∉ first.renameClass name) : ';' ∉ (first.compose second).renameClass name := by
  unfold renameClass OrderedMap.getD at h ⊢
  rw [get?_compose_classes]
  cases hfirst : first.classes.get? name with
  | none => exact hname
  | some mid =>
    rw [hfirst] at h
    exact notMem_mapNested h₂ h

/-! ## Signatures -/

/-- What the two tables make of the classes in a signature, the composition makes of them. The
pieces of a collection have been renamed by the first table as they are. -/
def CarriesExactly (first second : Table) : Signature → Prop
  | .text d => ∀ name ∈ Descriptor.classNames d, ContinuesExactly first second name
  | .joined _ t => ∀ name ∈ Descriptor.classNames t, second.renameClass name = name

theorem rename_compose {x : Signature} (hx : x.KeepsClosed first.renameClass)
    (h : CarriesExactly first second x) :
    second.renameDescriptor (x.rename first.renameClass) =
      x.rename (first.compose second).renameClass := by
  cases x with
  | text d =>
    show Descriptor.rename _ (Descriptor.rename _ d) = Descriptor.rename _ d
    rw [Descriptor.rename_rename hx]
    apply Descriptor.rename_congr
    intro name hname
    exact (renameClass_compose_iff.2 (h name hname)).symm
  | joined _ t => exact Descriptor.rename_eq_self h

theorem carriesExactly_of_rename_compose (h₂ : second.SemicolonFree) {x : Signature}
    (hx : x.KeepsClosed first.renameClass)
    (h : second.renameDescriptor (x.rename first.renameClass) =
      x.rename (first.compose second).renameClass) : CarriesExactly first second x := by
  cases x with
  | text d =>
    change Descriptor.rename _ (Descriptor.rename _ d) = Descriptor.rename _ d at h
    rw [Descriptor.rename_rename hx, Descriptor.rename_eq_rename_iff] at h
    · intro name hname
      exact renameClass_compose_iff.1 (h name hname).symm
    · intro name hname
      exact notMem_renameClass h₂ (hx name hname)
    · intro name hname
      exact notMem_renameClass_compose h₂ (Descriptor.notMem_of_mem_classNames hname) (hx name hname)
  | joined _ t =>
    have hself : Descriptor.rename second.renameClass t = Descriptor.rename id t := by
      rw [Descriptor.rename_eq_self (f := id) fun _ _ => rfl]
      exact h
    rw [Descriptor.rename_eq_rename_iff] at hself
    · exact hself
    · intro name hname
      exact notMem_renameClass h₂ (Descriptor.notMem_of_mem_classNames hname)
    · intro name hname
      exact Descriptor.notMem_of_mem_classNames hname

/-! ## The entries of a composition -/

/-- The entry of a member has been carried through both tables. -/
structure Carried (first second : Table) (source target : Identity) : Prop where
  owner : target.owner = second.mapNested (first.mapNested source.owner)
  signature : target.signature =
    source.signature.map fun x => .text (second.renameDescriptor (x.rename first.renameClass))

theorem carried_composedMember {kind kind' : MemberKind} {k : MemberKey} {mid : Text}
    {source target : Identity} {comment : Datum}
    (h : composedMember first second kind' k mid = .ofMember kind source target comment) :
    Carried first second source target := by
  rw [composedMember_eq] at h
  cases h
  refine ⟨rfl, ?_⟩
  show ((first.passOn kind k mid).descriptor.map second.renameDescriptor).map Signature.text = _
  cases kind with
  | field =>
    show (((fieldSignature first.bySource k).map _).map _).map _ = _
    rw [Option.map_map, Option.map_map]
    rfl
  | method =>
    show ((k.descriptor.map _).map _).map _ = (k.descriptor.map Signature.text).map _
    rw [Option.map_map, Option.map_map, Option.map_map]
    rfl

/-- **The entries of a composition have been carried through both tables.** -/
theorem carried_of_mem_entries {kind : MemberKind} {source target : Identity} {comment : Datum}
    (h : .ofMember kind source target comment ∈ (first.compose second).entries.values) :
    Carried first second source target := by
  have hmem : .ofMember kind source target comment ∈ composedEntries first second := by
    obtain ⟨key, hkey⟩ := OrderedMap.mem_values_iff.1 h
    rw [compose_entries] at hkey
    obtain ⟨e, he, hkeyed⟩ := List.mem_map.1 (OrderedMap.mem_of_get?_ofList hkey)
    obtain rfl : e = _ := congrArg Prod.snd hkeyed
    exact he
  have hmember : ∀ kind', .ofMember kind source target comment ∈
      composedMembers first second kind' → Carried first second source target := by
    intro kind' hmem
    obtain ⟨p, -, hp⟩ := List.mem_filterMap.1 hmem
    obtain ⟨k, -, hk⟩ := Option.map_eq_some_iff.1 hp
    exact carried_composedMember hk
  unfold composedEntries at hmem
  rw [List.mem_append, List.mem_append] at hmem
  rcases hmem with (hclass | hfield) | hmethod
  · obtain ⟨p, -, hp⟩ := List.mem_map.1 hclass
    cases hp
  · exact hmember .field hfield
  · exact hmember .method hmethod

theorem relocate_of_forall_none {t : Table} (h : ∀ p, t.packages.get? p = none) (name : Text) :
    t.relocate name = name := by
  rw [relocate_congr (u := empty) h name]
  unfold relocate
  split <;> rfl

/-- Without packages and exclusions the classes are all there is to a composition. -/
theorem mapClass_compose_of_empty (h₁ : first.packages = .empty) (h₂ : second.packages = .empty)
    (hx : first.excluded = []) (name : Text) :
    (first.compose second).mapClass name = (first.compose second).mapNested name := by
  have hcanonical : ∀ t : Table, t.packages = .empty → t.CanonicalPackages := by
    intro t ht
    rw [canonicalPackages_iff]
    intro p q hget
    rw [ht] at hget
    cases hget
  have hpackages : ∀ p, (first.compose second).packages.get? p = none := by
    intro p
    rw [get?_compose_packages (hcanonical first h₁) (hcanonical second h₂), h₁, h₂]
    simp
  rw [mapClass_of_excluded_eq_nil (compose_excluded_eq_nil hx second),
    relocate_of_forall_none hpackages]
  split
  · rename_i hkept
    exact hkept.symm
  · rfl

/-- **The owner of an entry follows exactly when the second table goes on where the first stops, and
its signature when the second goes on with just what the first hands over.** The signature follows
in no other case, unless some class of the second table gets a name that ends early. -/
theorem follows_of_mem_compose (h₁ : first.packages = .empty) (h₂ : second.packages = .empty)
    (hx : first.excluded = []) (kind : MemberKind) (source target : Identity) (comment : Datum)
    (he : .ofMember kind source target comment ∈ (first.compose second).entries.values) :
    ((first.compose second).OwnerFollows source target ↔
      Continues first second source.owner) ∧
    ((∀ x ∈ source.signature, x.KeepsClosed first.renameClass) →
      ((∀ x ∈ source.signature, CarriesExactly first second x) →
        (first.compose second).SignatureFollows source target) ∧
      (second.SemicolonFree → (first.compose second).SignatureFollows source target →
        ∀ x ∈ source.signature, CarriesExactly first second x)) := by
  have hcarried := carried_of_mem_entries he
  constructor
  · unfold OwnerFollows
    rw [hcarried.owner, mapClass_compose_of_empty h₁ h₂ hx, eq_comm, mapNested_compose_iff]
  · intro hclosed
    unfold SignatureFollows
    rw [hcarried.signature]
    constructor
    · intro hexact
      apply Option.map_congr
      intro x hmem
      exact congrArg Signature.text (rename_compose (hclosed x hmem) (hexact x hmem))
    · intro hsemicolon hsame x hmem
      rw [hmem, Option.map_some, Option.map_some] at hsame
      apply carriesExactly_of_rename_compose hsemicolon (hclosed x hmem)
      exact Signature.text.inj (Option.some.inj hsame)

/-- A method of a nested class, which both tables rename with the class around it. -/
theorem follows_compose_nested :
    let first := (empty.addClass "A".toList "B".toList .null).addMethod "A$I/m (LA;LX;)V".toList
      "n".toList
    let second := empty.addClass "B".toList "C".toList .null
    let source : Identity := ⟨"A$I".toList, "m".toList, some (.text "(LA;LX;)V".toList)⟩
    let target : Identity := ⟨"C$I".toList, "n".toList, some (.text "(LC;LX;)V".toList)⟩
    .ofMember .method source target .null ∈ (first.compose second).entries.values ∧
      (first.compose second).OwnerFollows source target ∧
      (first.compose second).SignatureFollows source target := by
  intro first second source target
  have hmem : Entry.ofMember .method source target .null ∈
      (first.compose second).entries.values := by
    have hvalues : (first.compose second).entries.values =
        [.ofClass "A".toList "C".toList .null, .ofMember .method source target .null] := by
      with_unfolding_all rfl
    rw [hvalues]
    exact List.mem_cons_of_mem _ List.mem_cons_self
  have hnames : ∀ name ∈ Descriptor.classNames "(LA;LX;)V".toList,
      ';' ∉ first.renameClass name ∧
        (first.compose second).renameClass name = second.renameClass (first.renameClass name) := by
    decide +kernel
  obtain ⟨howner, hsignature⟩ := follows_of_mem_compose rfl rfl rfl _ _ _ _ hmem
  refine ⟨hmem, howner.2 (mapNested_compose_iff.1 (by decide +kernel)), (hsignature ?_).1 ?_⟩
  · intro x hx
    obtain rfl := Option.some.inj hx
    exact fun name hname => (hnames name hname).1
  · intro x hx
    obtain rfl := Option.some.inj hx
    exact fun name hname => renameClass_compose_iff.1 (hnames name hname).2

/-- A class for which only the second table has an entry, as an owner and in a descriptor. -/
theorem not_follows_compose :
    let first := (empty.addField "A/f".toList "g".toList).addMethod "X/m (LA;)V".toList "n".toList
    let second := empty.addClass "A".toList "B".toList .null
    (first.packages = .empty ∧ second.packages = .empty ∧ first.excluded = [] ∧
      second.excluded = []) ∧
    (∃ source target, .ofMember .field source target .null ∈ (first.compose second).entries.values ∧
      ¬ (first.compose second).OwnerFollows source target) ∧
    ∃ source target, .ofMember .method source target .null ∈ (first.compose second).entries.values ∧
      ¬ (first.compose second).SignatureFollows source target := by
  intro first second
  let source : Identity := ⟨"X".toList, "m".toList, some (.text "(LA;)V".toList)⟩
  let target : Identity := ⟨"X".toList, "n".toList, some (.text "(LB;)V".toList)⟩
  have hvalues : (first.compose second).entries.values =
      [.ofMember .field ⟨"A".toList, "f".toList, none⟩ ⟨"B".toList, "g".toList, none⟩ .null,
        .ofMember .method source target .null] := by
    with_unfolding_all rfl
  rw [hvalues]
  refine ⟨⟨rfl, rfl, rfl, rfl⟩, ⟨_, _, List.mem_cons_self, ?_⟩,
    source, target, List.mem_cons_of_mem _ List.mem_cons_self, ?_⟩
  · decide +kernel
  · intro hfollows
    have hrename : "(LB;)V".toList =
        Descriptor.rename (first.compose second).renameClass "(LA;)V".toList :=
      Signature.text.inj (Option.some.inj hfollows)
    exact absurd hrename (by decide +kernel)

end Table

end Renaming
