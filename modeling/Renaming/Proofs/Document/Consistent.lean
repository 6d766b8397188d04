import Renaming.Mapping.Load
import Renaming.Proofs.Document.Declared

/-!
# `Proofs/Document/Consistent` — documents that contradict themselves are refused, and no others

A document may declare a symbol as often as it likes, item by item and class by class, as long as it
gives it one name. Whatever has been gone through, the maps of the table hold exactly the renames
declared so far (`Holds`); one more is added to them or refused because it contradicts one of them
(`IsConflict`). What each item keeps, the two loops over classes and their members keep, so for a
typed document:

> either it declares two names for one symbol and is refused, or the maps of its table are its
> renames, all of them and no others (`ofText_typed`).
-/

set_option autoImplicit false

namespace Renaming

/-- The maps of a table hold these renames and no others. -/
def Table.Holds (t : Table) (rs : List Rename) : Prop :=
  ∀ r : Rename, (r.kind.names t).get? r.key = some r.name ↔ r ∈ rs

/-- A fault that points at two of these renames which contradict each other. -/
def IsConflict (rs : List Rename) (f : Fault) : Prop :=
  ∃ kind key v w, f = .format (.conflict kind key v w) ∧ ⟨kind, key, v⟩ ∈ rs ∧
    ⟨kind, key, w⟩ ∈ rs ∧ v ≠ w

theorem IsConflict.mono {rs rs' : List Rename} (hsub : rs ⊆ rs') {f : Fault}
    (h : IsConflict rs f) : IsConflict rs' f := by
  obtain ⟨kind, key, v, w, rfl, hv, hw, hne⟩ := h
  exact ⟨kind, key, v, w, rfl, hsub hv, hsub hw, hne⟩

namespace Table.Holds

variable {t t' : Table} {rs : List Rename}

/-- Renames that a table holds do not contradict each other. -/
theorem name_eq (h : t.Holds rs) {kind : SymbolKind} {key v w : Text} (hv : ⟨kind, key, v⟩ ∈ rs)
    (hw : ⟨kind, key, w⟩ ∈ rs) : v = w := by
  have heq := ((h ⟨kind, key, v⟩).2 hv).symm.trans ((h ⟨kind, key, w⟩).2 hw)
  exact Option.some.inj heq

/-- A rename that contradicts none of those before it is one more. -/
theorem record (h : t.Holds rs) {r : Rename}
    (hfree : ∀ v, (r.kind.names t).get? r.key = some v → v = r.name)
    (hself : r.kind.names t' = (r.kind.names t).insert r.key r.name)
    (hother : ∀ kind, kind ≠ r.kind → kind.names t' = kind.names t) : t'.Holds (rs ++ [r]) := by
  intro x
  rw [List.mem_append, List.mem_singleton]
  by_cases hkind : x.kind = r.kind
  · rw [hkind, hself, OrderedMap.get?_insert]
    split
    · rename_i hkey
      have hx := h x
      rw [hkind, hkey] at hx
      constructor
      · intro hname
        exact .inr (by cases x; cases r; simp_all)
      · rintro (hmem | rfl)
        · rw [hfree x.name (hx.2 hmem)]
        · rfl
    · rename_i hkey
      have hx := h x
      rw [hkind] at hx
      rw [hx, or_iff_left (fun heq => hkey (by rw [heq]))]
  · rw [hother x.kind hkind, h x, or_iff_left (fun heq => hkind (by rw [heq]))]

end Table.Holds

/-! ## Items that were read -/

/-- A class whose items have all been read, with what is known of their signatures. -/
def ClassItem.IsRead (c : ClassItem) : Prop :=
  ∀ kind, ∀ item ∈ c.members kind, Ends (fun x => ∃ s, x.signature = .ok s) (fun _ => False) item

/-- A text or nothing stands for a signature that is known. -/
theorem Datum.exists_signature {d : Datum} (h : d.IsPlain) : ∃ s, d.signature = .ok s := by
  obtain ⟨t, rfl⟩ := h
  cases t with
  | none => exact ⟨_, rfl⟩
  | some t => exact ⟨_, rfl⟩

theorem MemberItem.reads_ofField? {fs : Option Datum.Fields} (h : isTyped .field fs = true) :
    Ends (fun o => ∀ x ∈ o, ∃ s, x.signature = .ok s) (fun _ => False) (ofField? fs) := by
  cases fs with
  | none => exact fun x hx => nomatch hx
  | some fs =>
    obtain ⟨hnames, htype, -⟩ := Datum.of_isMember h
    unfold ofField?
    obtain ⟨hread, -⟩ | ⟨s, t, hread, -⟩ := Datum.names?_cases hnames
    · simp only [hread]
      exact fun x hx => nomatch hx
    · simp only [hread]
      rintro x ⟨⟩
      exact Datum.exists_signature htype

theorem MemberItem.reads_ofMethod? {fs : Option Datum.Fields} (h : isTyped .method fs = true) :
    Ends (fun o => ∀ x ∈ o, ∃ s, x.signature = .ok s) (fun _ => False) (ofMethod? fs) := by
  cases fs with
  | none => cases h
  | some fs =>
    obtain ⟨hnames, hdescriptor, -⟩ := Datum.of_isMember h
    have hwriting : (Datum.field "descriptor" fs).inWriting = _ :=
      Datum.inWriting_eq_ok (Datum.isWritable_of_isPlain hdescriptor)
    unfold ofMethod?
    obtain ⟨hread, -⟩ | ⟨s, t, hread, -⟩ := Datum.names?_cases hnames
    · simp only [hread]
      exact fun x hx => nomatch hx
    · simp only [hread, hwriting, bind, Except.bind]
      split
      · rintro x ⟨⟩
        exact Datum.exists_signature hdescriptor
      · exact fun x hx => nomatch hx

theorem MemberItem.reads_ofFields? {kind : MemberKind} {fs : Option Datum.Fields}
    (h : isTyped kind fs = true) :
    Ends (fun o => ∀ x ∈ o, ∃ s, x.signature = .ok s) (fun _ => False) (ofFields? kind fs) := by
  cases kind with
  | field => exact reads_ofField? h
  | method => exact reads_ofMethod? h

theorem ClassItem.reads_ofFields? {fs : Option Datum.Fields} (h : ClassItem.isTyped fs = true) :
    Ends (fun o => ∀ c ∈ o, c.IsRead) (fun _ => False) (ClassItem.ofFields? fs) := by
  cases fs with
  | none => exact fun x hx => nomatch hx
  | some fs =>
    obtain ⟨hnames, -, hmembers⟩ := of_isTyped h
    unfold ClassItem.ofFields?
    obtain ⟨hread, -⟩ | ⟨s, t, hread, -⟩ := Datum.names?_cases hnames
    · simp only [hread]
      exact fun x hx => nomatch hx
    · simp only [hread]
      rintro c ⟨⟩ kind
      rw [members_mk]
      exact Datum.ends_listing (fun _ => MemberItem.reads_ofFields?) (hmembers kind)

/-! ## Going through a document -/

namespace Document

variable {t : Table} {rs : List Rename}

/-- A new name is free, or it contradicts one that the table holds. -/
theorem ends_checkConflict_of_holds (h : t.Holds rs) (r : Rename) :
    Ends (fun _ => ∀ v, (r.kind.names t).get? r.key = some v → v = r.name)
      (IsConflict (rs ++ [r])) (checkConflict r.kind (r.kind.names t) r.key r.name) := by
  unfold checkConflict
  split
  · rename_i v hv
    split
    · rename_i heq
      intro w hw
      rw [hv] at hw
      cases hw
      exact heq
    · rename_i hne
      have hmem : ⟨r.kind, r.key, v⟩ ∈ rs := (h ⟨r.kind, r.key, v⟩).1 hv
      exact ⟨r.kind, r.key, v, r.name, rfl, List.mem_append_left _ hmem,
        List.mem_append_right _ List.mem_cons_self, hne⟩
  · rename_i hnone
    intro w hw
    rw [hnone] at hw
    cases hw

theorem ends_addMember_of_holds (kind : MemberKind) (owners : Text × Text) (h : t.Holds rs)
    {x : MemberItem} (hx : ∃ s, x.signature = .ok s) :
    Ends (Table.Holds · (rs ++ [x.rename kind owners.1]))
      (IsConflict (rs ++ [x.rename kind owners.1])) (addMember kind owners t x) := by
  obtain ⟨s, hs⟩ := hx
  unfold addMember
  rw [← kind.names_symbol]
  apply (ends_checkConflict_of_holds h (x.rename kind owners.1)).bind
  intro _ hfree
  rw [hs]
  -- the rename is put into the map of its kind, and the other maps are as they were
  cases kind with
  | field =>
    refine h.record hfree rfl ?_
    rintro (_ | _ | _) hkind
    · rfl
    · exact absurd rfl hkind
    · rfl
  | method =>
    refine h.record hfree rfl ?_
    rintro (_ | _ | _) hkind
    · rfl
    · rfl
    · exact absurd rfl hkind

theorem ends_addClassRename_of_holds (h : t.Holds rs) (source target : Text) (comment : Datum) :
    Ends (Table.Holds · (rs ++ [⟨.ofClass, source, target⟩]))
      (IsConflict (rs ++ [⟨.ofClass, source, target⟩]))
      (addClassRename t source target comment) := by
  unfold addClassRename
  apply (ends_checkConflict_of_holds h ⟨.ofClass, source, target⟩).bind
  intro _ hfree
  split
  · -- the class is there, so it has this name and the map is as it was
    rename_i hthere
    obtain ⟨v, hv⟩ := Option.isSome_iff_exists.1 hthere
    obtain rfl : v = target := hfree v hv
    intro x
    rw [List.mem_append, List.mem_singleton, h x]
    exact (or_iff_left_of_imp fun heq => heq ▸ (h ⟨.ofClass, source, v⟩).1 hv).symm
  · refine h.record hfree rfl ?_
    rintro (_ | _ | _) hkind
    · exact absurd rfl hkind
    · rfl
    · rfl

/-- **What one item adds to the renames of a table, a list of items adds.** -/
theorem ends_fold_of_holds {α : Type} {good : α → Prop} {step : Table → α → Except Fault Table}
    {renames : α → List Rename}
    (hstep : ∀ {t rs}, t.Holds rs → ∀ {a}, good a →
      Ends (Table.Holds · (rs ++ renames a)) (IsConflict (rs ++ renames a)) (step t a))
    {items : Listing α} (hitems : ∀ item ∈ items, Ends good (fun _ => False) item)
    (h : t.Holds rs) :
    Ends (Table.Holds · (rs ++ items.values.flatMap renames))
      (IsConflict (rs ++ items.values.flatMap renames)) (items.fold step t) := by
  induction items generalizing t rs with
  | nil =>
    rw [show Listing.values ([] : Listing α) = [] from rfl, List.flatMap_nil, List.append_nil]
    exact h
  | cons item items ih =>
    obtain ⟨a, rfl, ha⟩ | ⟨f, -, hf⟩ := (hitems item List.mem_cons_self).ok_or_error
    · have hrest := fun t rs => @ih t rs fun item hitem =>
        hitems item (List.mem_cons_of_mem _ hitem)
      rw [show Listing.values (.ok a :: items) = a :: Listing.values items from rfl, List.flatMap_cons,
        ← List.append_assoc]
      show Ends _ _ (step t a >>= fun t => Listing.fold step t items)
      refine Ends.bind ((hstep h ha).mono (fun _ ht => ht) fun f hf => ?_) fun t ht => hrest t _ ht
      exact hf.mono (List.subset_append_left _ _)
    · exact hf.elim

theorem ends_addClass_of_holds (h : t.Holds rs) {c : ClassItem} (hc : c.IsRead) :
    Ends (Table.Holds · (rs ++ c.renames)) (IsConflict (rs ++ c.renames)) (addClass t c) := by
  have hrenames : c.renames = [c.rename] ++
      ((c.members .field).values.flatMap (fun x => [x.rename .field c.owner]) ++
        (c.members .method).values.flatMap fun x => [x.rename .method c.owner]) := by
    rw [ClassItem.renames, List.map_eq_flatMap, List.map_eq_flatMap]
    rfl
  rw [hrenames]
  unfold addClass
  refine Ends.bind ((ends_addClassRename_of_holds h _ _ c.comment).mono (fun _ ht => ht)
    fun f hf => hf.mono ?_) fun t ht => ?_
  · rw [← List.append_assoc]
    exact List.subset_append_left _ _
  refine Ends.bind ((ends_fold_of_holds (fun ht _ => ends_addMember_of_holds _ _ ht) (hc .field)
    ht).mono (fun _ ht => ht) fun f hf => hf.mono ?_) fun t ht => ?_
  · rw [← List.append_assoc, ← List.append_assoc]
    exact List.subset_append_left _ _
  have hmethods := ends_fold_of_holds
    (fun ht _ => ends_addMember_of_holds .method (Descriptor.internalName c.source,
      Descriptor.internalName c.target) ht) (hc .method) ht
  rw [List.append_assoc, List.append_assoc] at hmethods
  exact hmethods

/-- **Going through a document that was read adds its renames, or comes upon a contradiction.** -/
theorem ends_table_of_read {d : Document}
    (h : ∀ item ∈ d, Ends ClassItem.IsRead (fun _ => False) item) :
    Ends (Table.Holds · d.renames) (IsConflict d.renames) d.table := by
  have hempty : Table.empty.Holds [] := by
    rintro ⟨_ | _ | _, key, name⟩ <;> simp [SymbolKind.names, Table.empty]
  exact ends_fold_of_holds ends_addClass_of_holds h hempty

end Document

/-! ## The table of a text -/

namespace Datum

/-- A list of classes declares two names for one symbol. -/
def Contradicts (classes : Datum) : Prop :=
  ∃ kind key v w, classes.Declares ⟨kind, key, v⟩ ∧ classes.Declares ⟨kind, key, w⟩ ∧ v ≠ w

end Datum

/-- **A structured document is refused if it contradicts itself, and otherwise the maps of its table
are the renames that it declares**, whatever the text of the document and whoever reads it: the
statement is about the value that was read. -/
theorem Table.ofText_typed {read : DocumentReader} {filename : Option Text} {step : Step}
    {text : Text} {d : Datum} {fs : Datum.Fields}
    (hformat : Format.detect filename text = .ok .yaml) (hread : read text = .ok d)
    (hfs : d.fields? = some fs)
    (h : (Datum.field "classes" fs).lists ClassItem.isTyped = true) :
    ((∃ g, ofText read filename step text = .error (.format g)) ↔
      (Datum.field "classes" fs).Contradicts) ∧
    (¬ (Datum.field "classes" fs).Contradicts →
      ∃ t, ofText read filename step text = .ok (step.direct t) ∧
        ∀ r : Rename, (r.kind.names t).get? r.key = some r.name ↔
          (Datum.field "classes" fs).Declares r) := by
  have hitems : ∀ item ∈ Document.ofDatum d, Ends ClassItem.IsRead (fun _ => False) item := by
    rw [Document.ofDatum_eq hfs]
    exact Datum.ends_listing (fun _ => ClassItem.reads_ofFields?) h
  have hdeclared := fun r => Document.mem_renames_ofDatum_iff hfs h (r := r)
  have htext : ofText read filename step text = step.direct <$> (Document.ofDatum d).table := by
    unfold ofText ofFormat Document.ofText Mapping.reader?
    rw [hformat, hread]
    rfl
  obtain ⟨t, htable, hholds⟩ | ⟨f, htable, kind, key, v, w, rfl, hv, hw, hne⟩ :=
    (Document.ends_table_of_read hitems).ok_or_error
  · rw [htext, htable]
    have hagree : ¬ (Datum.field "classes" fs).Contradicts := by
      rintro ⟨kind, key, v, w, hv, hw, hne⟩
      exact hne (hholds.name_eq ((hdeclared _).2 hv) ((hdeclared _).2 hw))
    refine ⟨iff_of_false (fun ⟨g, hg⟩ => by cases hg) hagree, fun _ => ⟨t, rfl, fun r => ?_⟩⟩
    exact (hholds r).trans (hdeclared r)
  · rw [htext, htable]
    have hcontradicts : (Datum.field "classes" fs).Contradicts :=
      ⟨kind, key, v, w, (hdeclared _).1 hv, (hdeclared _).1 hw, hne⟩
    exact ⟨iff_of_true ⟨_, rfl⟩ hcontradicts, fun hagree => absurd hcontradicts hagree⟩

/-- A class is listed twice, the second time in another spelling of the same names, and with a field
that has names and one that has none. -/
def repeatedText : Text :=
  ("classes:\n- obfuscated: a/b\n  readable: c/d\n- obfuscated: a.b\n  readable: c.d\n" ++
    "  fields:\n  - obfuscated: f\n    readable: g\n  - \x7b\x7d\n").toList

def repeatedStore : Store :=
  let text (name : String) : Part := .atom (.text name.toList)
  ⟨0, #[
    .mapping [(.text "classes".toList, .link 1)],
    .list [.link 2, .link 3],
    .mapping [(.text "obfuscated".toList, text "a/b"), (.text "readable".toList, text "c/d")],
    .mapping [(.text "obfuscated".toList, text "a.b"), (.text "readable".toList, text "c.d"),
      (.text "fields".toList, .link 4)],
    .list [.link 5, .link 6],
    .mapping [(.text "obfuscated".toList, text "f"), (.text "readable".toList, text "g")],
    .mapping []]⟩

theorem ofText_typed_repeated :
    let read : DocumentReader := fun _ => .ok (.collection repeatedStore 0)
    let classes : Datum := .collection repeatedStore 1
    Format.detect (some "m.yaml".toList) repeatedText = .ok .yaml ∧
      classes.lists ClassItem.isTyped = true ∧ ¬ classes.Contradicts ∧
      ∃ t, Table.ofText read (some "m.yaml".toList) .default repeatedText =
          .ok (Step.default.direct t) ∧
        (∀ r : Rename, (r.kind.names t).get? r.key = some r.name ↔ classes.Declares r) ∧
        t.classes.get? "a/b".toList = some "c/d".toList ∧
        t.fields.get? "a/b/f".toList = some "g".toList := by
  intro read classes
  have hformat : Format.detect (some "m.yaml".toList) repeatedText = .ok .yaml := rfl
  have hlists : classes.lists ClassItem.isTyped = true := by decide +kernel
  have hfs : (Datum.collection repeatedStore 0).fields? =
      some [(.text "classes".toList, classes)] := rfl
  obtain ⟨hrefused, hmade⟩ :=
    @Table.ofText_typed read (some "m.yaml".toList) .default repeatedText _ _ hformat rfl hfs hlists
  have hagree : ¬ classes.Contradicts := fun h => by
    obtain ⟨g, hg⟩ := hrefused.2 h
    cases hg
  obtain ⟨t, ht, hnames⟩ := hmade hagree
  have hclass : classes.Declares ⟨.ofClass, "a/b".toList, "c/d".toList⟩ :=
    @Datum.Declares.ofClass classes _ "a/b".toList "c/d".toList ⟨_, rfl, List.mem_cons_self⟩
      ⟨rfl, rfl, rfl, rfl⟩
  have hfield : classes.Declares ⟨.ofField, "a/b/f".toList, "g".toList⟩ :=
    @Datum.Declares.ofMember classes .field _ _ "a.b".toList "c.d".toList "f".toList "g".toList
      ⟨_, rfl, List.mem_cons_of_mem _ List.mem_cons_self⟩ ⟨rfl, rfl, rfl, rfl⟩
      ⟨_, rfl, List.mem_cons_self⟩ ⟨rfl, rfl, rfl, rfl⟩ trivial
  exact ⟨hformat, hlists, hagree, t, ht, hnames, (hnames _).2 hclass, (hnames _).2 hfield⟩

end Renaming
