import Renaming.Proofs.Document.Typed
import Renaming.Proofs.Table.SourceIndex

/-!
# `Proofs/Document/Declared` — what a structured document declares

A structured document declares new names for classes, fields and methods. Which ones, shows in its
values item by item (`Datum.Declares`): an item counts when it has both its names, a member only if
its class does, and a method only if it has a descriptor. Going through a typed document gives the
same renames in the order of its items:

> what the items of a typed document declare is what its values declare (`mem_renames_ofDatum_iff`).
-/

set_option autoImplicit false

namespace Renaming

/-- A symbol by its kind and key, and a new name for it. -/
structure Rename where
  kind : SymbolKind
  key : Text
  name : Text
deriving DecidableEq, Repr

/-! ## Values -/

namespace Datum

/-- One of the items that a value lists is a mapping with these fields. -/
def Lists (d : Datum) (fs : Fields) : Prop := ∃ items, d.listed = .ok items ∧ some fs ∈ items

/-- Both names are there, and these are they in writing. -/
structure HasNames (fs : Fields) (source target : Text) : Prop where
  isPresent_source : (field "obfuscated" fs).isPresent = true
  isPresent_target : (field "readable" fs).isPresent = true
  written_source : (field "obfuscated" fs).written = source
  written_target : (field "readable" fs).written = target

/-- The descriptor by which a member is known, in writing. A field is known without its type. -/
def descriptor? : MemberKind → Fields → Option Text
  | .field, _ => none
  | .method, fs => some (field "descriptor" fs).written

/-- A descriptor is there where one is needed. -/
def IsDescribed : MemberKind → Fields → Prop
  | .field, _ => True
  | .method, fs => (field "descriptor" fs).isPresent = true

/-- A list of classes declares a new name. -/
inductive Declares (classes : Datum) : Rename → Prop
  | ofClass {c : Fields} {s t : Text} (hc : classes.Lists c) (hnames : HasNames c s t) :
    Declares classes ⟨.ofClass, Descriptor.internalName s, Descriptor.internalName t⟩
  | ofMember {kind : MemberKind} {c f : Fields} {s t n m : Text} (hc : classes.Lists c)
    (howner : HasNames c s t) (hf : (field kind.listName c).Lists f) (hnames : HasNames f n m)
    (hdescribed : IsDescribed kind f) :
    Declares classes
      ⟨kind.symbol, (MemberKey.mk (Descriptor.internalName s) n (descriptor? kind f)).format, m⟩

end Datum

/-! ## Items -/

def Listing.values {α : Type} (items : Listing α) : List α := items.filterMap Except.toOption

def MemberItem.rename (kind : MemberKind) (owner : Text) (x : MemberItem) : Rename :=
  ⟨kind.symbol, x.key owner, x.target⟩

namespace ClassItem

/-- The old name of a class, as its members name it. -/
def owner (c : ClassItem) : Text := Descriptor.internalName c.source

def rename (c : ClassItem) : Rename := ⟨.ofClass, c.owner, Descriptor.internalName c.target⟩

def renames (c : ClassItem) : List Rename :=
  c.rename :: ((c.members .field).values.map (MemberItem.rename .field c.owner) ++
    (c.members .method).values.map (MemberItem.rename .method c.owner))

end ClassItem

def Document.renames (d : Document) : List Rename := d.values.flatMap ClassItem.renames

/-! ## From values to items -/

namespace Datum

/-- The items of a typed value are of its kind. -/
theorem Lists.kind {kind : Option Fields → Bool} {d : Datum} {fs : Fields} (hfs : d.Lists fs)
    (h : d.lists kind = true) : kind (some fs) = true := by
  obtain ⟨items, hitems, hmem⟩ := hfs
  unfold lists at h
  rw [hitems] at h
  exact List.all_eq_true.1 h _ hmem

theorem mem_values_listing_iff {α : Type} {read : Option Fields → Except Fault (Option α)}
    (hnone : ∀ a, read none ≠ .ok (some a)) {d : Datum} {a : α} :
    a ∈ (d.listing read).values ↔ ∃ fs, d.Lists fs ∧ read (some fs) = .ok (some a) := by
  unfold Listing.values listing Lists
  cases hlisted : d.listed with
  | error f => simp [Except.toOption]
  | ok items =>
    rw [List.filterMap_filterMap, List.mem_filterMap]
    constructor
    · rintro ⟨item, hitem, ha⟩
      cases hread : read item with
      | error f =>
        rw [hread] at ha
        cases ha
      | ok o =>
        rw [hread] at ha
        cases o with
        | none => cases ha
        | some b =>
          cases ha
          cases item with
          | none => exact absurd hread (hnone _)
          | some fs => exact ⟨fs, ⟨items, rfl, hitem⟩, hread⟩
    · rintro ⟨fs, ⟨items', hitems, hfs⟩, hread⟩
      cases hitems
      exact ⟨some fs, hfs, by rw [hread]; rfl⟩

/-- The names of an item that can be written are read as they are in writing. -/
theorem names?_cases {fs : Fields} (h : hasWritableNames fs = true) :
    (names? fs = .ok none ∧ ∀ s t, ¬ HasNames fs s t) ∨
      ∃ s t, names? fs = .ok (some (s, t)) ∧ ∀ s' t', HasNames fs s' t' ↔ s = s' ∧ t = t' := by
  obtain ⟨hsource, htarget⟩ := Bool.and_eq_true_iff.1 h
  unfold names?
  dsimp only
  rw [inWriting_eq_ok hsource, inWriting_eq_ok htarget]
  split
  · rename_i hpresent
    obtain ⟨hs, ht⟩ := Bool.and_eq_true_iff.1 hpresent
    refine .inr ⟨_, _, rfl, fun s' t' => ⟨?_, ?_⟩⟩
    · exact fun hnames => ⟨hnames.written_source, hnames.written_target⟩
    · exact fun heq => ⟨hs, ht, heq.1, heq.2⟩
  · rename_i hpresent
    refine .inl ⟨rfl, fun s t hnames => hpresent ?_⟩
    exact Bool.and_eq_true_iff.2 ⟨hnames.isPresent_source, hnames.isPresent_target⟩

end Datum

theorem MemberItem.ofField?_eq_some_iff {fs : Datum.Fields} (h : isTyped .field (some fs) = true)
    {x : MemberItem} :
    ofField? (some fs) = .ok (some x) ↔ ∃ n m, Datum.HasNames fs n m ∧
      x = ⟨n, m, none, (Datum.field "type" fs).signature, Datum.field "comment" fs⟩ := by
  obtain ⟨hread, hnone⟩ | ⟨s, t, hread, hnames⟩ := Datum.names?_cases (Datum.of_isMember h).1
  · simp [ofField?, hread, hnone, bind, Except.bind, pure, Except.pure]
  · simp [ofField?, hread, hnames, bind, Except.bind, pure, Except.pure, eq_comm]

theorem MemberItem.ofMethod?_eq_some_iff {fs : Datum.Fields}
    (h : isTyped .method (some fs) = true) {x : MemberItem} :
    ofMethod? (some fs) = .ok (some x) ↔
      ∃ n m, Datum.HasNames fs n m ∧ (Datum.field "descriptor" fs).isPresent = true ∧
        x = ⟨n, m, some (Datum.field "descriptor" fs).written,
          (Datum.field "descriptor" fs).signature, Datum.field "comment" fs⟩ := by
  obtain ⟨hwritable, hdescriptor, -⟩ := Datum.of_isMember h
  have hwriting : (Datum.field "descriptor" fs).inWriting = _ :=
    Datum.inWriting_eq_ok (Datum.isWritable_of_isPlain hdescriptor)
  obtain ⟨hread, hnone⟩ | ⟨s, t, hread, hnames⟩ := Datum.names?_cases hwritable
  · simp [ofMethod?, hread, hnone, bind, Except.bind, pure, Except.pure]
  · cases hpresent : (Datum.field "descriptor" fs).isPresent with
    | false =>
      simp [ofMethod?, hread, hpresent, bind, Except.bind, pure, Except.pure]
    | true =>
      simp [ofMethod?, hread, hpresent, hwriting, hnames, bind, Except.bind, pure, Except.pure,
        eq_comm]

/-- A member is read when it has both its names and is described, and it is read as it is. -/
theorem MemberItem.ofFields?_eq_some_iff {kind : MemberKind} {fs : Datum.Fields}
    (h : isTyped kind (some fs) = true) {x : MemberItem} :
    ofFields? kind (some fs) = .ok (some x) ↔
      ∃ n m, Datum.HasNames fs n m ∧ Datum.IsDescribed kind fs ∧
        x = ⟨n, m, Datum.descriptor? kind fs, (Datum.field kind.signatureName fs).signature,
          Datum.field "comment" fs⟩ := by
  cases kind with
  | field =>
    refine (ofField?_eq_some_iff h).trans (exists₂_congr fun n m => and_congr_right fun _ => ?_)
    exact (and_iff_right trivial).symm
  | method => exact ofMethod?_eq_some_iff h

/-- An item that is no mapping is no member of either kind. -/
theorem MemberItem.ofFields?_none (kind : MemberKind) (x : MemberItem) :
    ofFields? kind none ≠ .ok (some x) := by
  cases kind <;> exact nofun

theorem ClassItem.ofFields?_eq_some_iff {fs : Datum.Fields}
    (h : ClassItem.isTyped (some fs) = true) {c : ClassItem} :
    ClassItem.ofFields? (some fs) = .ok (some c) ↔ ∃ s t, Datum.HasNames fs s t ∧
      c = ⟨s, t, Datum.field "comment" fs,
        (Datum.field "fields" fs).listing (MemberItem.ofFields? .field),
        (Datum.field "methods" fs).listing (MemberItem.ofFields? .method)⟩ := by
  obtain ⟨hread, hnone⟩ | ⟨s, t, hread, hnames⟩ := Datum.names?_cases (ClassItem.of_isTyped h).1
  · simp [ClassItem.ofFields?, hread, hnone, bind, Except.bind, pure, Except.pure]
  · simp [ClassItem.ofFields?, hread, hnames, bind, Except.bind, pure, Except.pure, eq_comm]

/-! ## What the items of a document declare -/

theorem MemberItem.mem_renames_iff {kind : MemberKind} {owner : Text} {d : Datum}
    (h : d.lists (isTyped kind) = true) {r : Rename} :
    r ∈ (d.listing (ofFields? kind)).values.map (rename kind owner) ↔
      ∃ f n m, d.Lists f ∧ Datum.HasNames f n m ∧ Datum.IsDescribed kind f ∧
        r = ⟨kind.symbol, (MemberKey.mk owner n (Datum.descriptor? kind f)).format, m⟩ := by
  rw [List.mem_map]
  constructor
  · rintro ⟨x, hx, rfl⟩
    obtain ⟨f, hf, hread⟩ := (Datum.mem_values_listing_iff (ofFields?_none kind)).1 hx
    obtain ⟨n, m, hnames, hdescribed, rfl⟩ := (ofFields?_eq_some_iff (hf.kind h)).1 hread
    exact ⟨f, n, m, hf, hnames, hdescribed, rfl⟩
  · rintro ⟨f, n, m, hf, hnames, hdescribed, rfl⟩
    have hread := (ofFields?_eq_some_iff (hf.kind h)).2 ⟨n, m, hnames, hdescribed, rfl⟩
    exact ⟨_, (Datum.mem_values_listing_iff (ofFields?_none kind)).2 ⟨f, hf, hread⟩, rfl⟩

theorem ClassItem.mem_renames {c : ClassItem} {r : Rename} :
    r ∈ c.renames ↔ r = c.rename ∨
      ∃ kind : MemberKind, r ∈ (c.members kind).values.map (MemberItem.rename kind c.owner) := by
  rw [renames, List.mem_cons, List.mem_append]
  constructor
  · rintro (h | h | h)
    · exact .inl h
    · exact .inr ⟨.field, h⟩
    · exact .inr ⟨.method, h⟩
  · rintro (h | ⟨_ | _, h⟩)
    · exact .inl h
    · exact .inr (.inl h)
    · exact .inr (.inr h)

/-- What a class item declares with its members. -/
theorem ClassItem.mem_renames_iff {fs : Datum.Fields} (h : ClassItem.isTyped (some fs) = true)
    {s t : Text} {comment : Datum} {r : Rename} :
    r ∈ (⟨s, t, comment, (Datum.field "fields" fs).listing (MemberItem.ofFields? .field),
        (Datum.field "methods" fs).listing (MemberItem.ofFields? .method)⟩ : ClassItem).renames ↔
      r = ⟨.ofClass, Descriptor.internalName s, Descriptor.internalName t⟩ ∨
      ∃ (kind : MemberKind) (f : Datum.Fields) (n m : Text),
        (Datum.field kind.listName fs).Lists f ∧ Datum.HasNames f n m ∧
        Datum.IsDescribed kind f ∧
        r = ⟨kind.symbol,
          (MemberKey.mk (Descriptor.internalName s) n (Datum.descriptor? kind f)).format, m⟩ := by
  rw [mem_renames]
  refine or_congr Iff.rfl (exists_congr fun kind => ?_)
  rw [members_mk, MemberItem.mem_renames_iff ((of_isTyped h).2.2 kind)]
  rfl

/-- A document that is a mapping reads its list of classes. -/
theorem Document.ofDatum_eq {d : Datum} {fs : Datum.Fields} (hfs : d.fields? = some fs) :
    ofDatum d = (Datum.field "classes" fs).listing ClassItem.ofFields? := by
  unfold ofDatum
  split
  · cases hfs
  · rename_i fs' _ hfs'
    rw [hfs] at hfs'
    cases hfs'
    rfl
  · rename_i hnone
    rw [hfs] at hnone
    cases hnone

/-- **What the items of a typed document declare is what its values declare.** -/
theorem Document.mem_renames_ofDatum_iff {d : Datum} {fs : Datum.Fields} (hfs : d.fields? = some fs)
    (h : (Datum.field "classes" fs).lists ClassItem.isTyped = true) {r : Rename} :
    r ∈ (ofDatum d).renames ↔ (Datum.field "classes" fs).Declares r := by
  rw [renames, ofDatum_eq hfs, List.mem_flatMap]
  constructor
  · rintro ⟨c, hc, hr⟩
    obtain ⟨f, hf, hread⟩ := (Datum.mem_values_listing_iff (by simp [ClassItem.ofFields?])).1 hc
    obtain ⟨s, t, hnames, rfl⟩ := (ClassItem.ofFields?_eq_some_iff (hf.kind h)).1 hread
    obtain rfl | ⟨kind, g, n, m, hg, hmember, hdescribed, rfl⟩ :=
      (ClassItem.mem_renames_iff (hf.kind h)).1 hr
    · exact .ofClass hf hnames
    · exact .ofMember hf hnames hg hmember hdescribed
  · intro hr
    -- the class of the rename is the item that is looked for
    have hclass : ∀ {c s t}, (Datum.field "classes" fs).Lists c → Datum.HasNames c s t →
        (⟨s, t, Datum.field "comment" c,
          (Datum.field "fields" c).listing (MemberItem.ofFields? .field),
          (Datum.field "methods" c).listing (MemberItem.ofFields? .method)⟩ : ClassItem) ∈
            ((Datum.field "classes" fs).listing ClassItem.ofFields?).values := fun hc hnames =>
      (Datum.mem_values_listing_iff (by simp [ClassItem.ofFields?])).2
        ⟨_, hc, (ClassItem.ofFields?_eq_some_iff (hc.kind h)).2 ⟨_, _, hnames, rfl⟩⟩
    cases hr with
    | ofClass hc hnames =>
      exact ⟨_, hclass hc hnames, (ClassItem.mem_renames_iff (hc.kind h)).2 (.inl rfl)⟩
    | ofMember hc howner hf hnames hdescribed =>
      exact ⟨_, hclass hc howner, (ClassItem.mem_renames_iff (hc.kind h)).2
        (.inr ⟨_, _, _, _, hf, hnames, hdescribed, rfl⟩)⟩

end Renaming
