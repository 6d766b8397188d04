import Renaming.Proofs.Document.Consistent
import Renaming.Proofs.Table.Entries

/-!
# `Proofs/Document/Repeated` — what it means to list a class once more

The renames of a class that is listed once more are there already. Its members are put among the
entries again nevertheless, with their signatures read by the classes that are known by then, and
take the place of whatever has their targets (`table_append_copy`). So a copy at the end says
nothing new only if the entries of its members, read by all the classes, are those in the table.
That is so for a copy of the last class (`table_append_last`), but not for one with a member whose
signature names a class below it (`changed_lateText`).
-/

set_option autoImplicit false

namespace Renaming

/-! ## The entries of members -/

/-- The entry of a member, its signature read by the classes of a table. -/
def MemberItem.entryIn (t : Table) (kind : MemberKind) (owners : Text × Text) (x : MemberItem) :
    Entry :=
  Document.memberEntry t kind owners (x.source, x.target) x.signature.toOption.join x.comment

namespace ClassItem

/-- Both names of a class, as its members name it. -/
def owners (c : ClassItem) : Text × Text := (c.owner, Descriptor.internalName c.target)

/-- What the members of a class are called, by their keys. -/
def memberNames (c : ClassItem) (kind : MemberKind) : List (Text × Text) :=
  (c.members kind).values.map fun x => (x.key c.owner, x.target)

/-- The entries of the members of a class, in their order. -/
def memberEntries (t : Table) (c : ClassItem) : List Entry :=
  (c.members .field).values.map (MemberItem.entryIn t .field c.owners) ++
    (c.members .method).values.map (MemberItem.entryIn t .method c.owners)

end ClassItem

/-- The table with entries put into it one after the other. -/
def Table.addEntries (t : Table) (es : List Entry) : Table :=
  { t with entries := t.entries.insertAll (es.map Entry.keyed) }

theorem Table.addEntries_append (t : Table) (es es' : List Entry) :
    t.addEntries (es ++ es') = (t.addEntries es).addEntries es' := by
  unfold addEntries
  rw [List.map_append, OrderedMap.insertAll_append]

/-- Entries change nothing just when those that are left of them were there. -/
theorem Table.addEntries_eq_self_iff {t : Table} {es : List Entry} :
    t.addEntries es = t ↔
      ∀ k e, (OrderedMap.ofList (es.map Entry.keyed)).get? k = some e →
        t.entries.get? k = some e := by
  rw [← OrderedMap.insertAll_eq_self_iff]
  constructor
  · intro h
    exact congrArg Table.entries h
  · intro h
    unfold addEntries
    rw [h]

namespace Listing

variable {α β : Type} {f : β → α → Except Fault β} {b r : β}

theorem fold_ok (f : β → α → Except Fault β) (b : β) (as : List α) :
    Listing.fold f b (as.map .ok) = as.foldlM f b := by
  unfold fold
  rw [List.foldlM_map]
  rfl

/-- Items that were gone through to the end were all read. -/
theorem eq_map_values_of_fold {items : Listing α} (h : items.fold f b = .ok r) :
    items = items.values.map .ok := by
  induction items generalizing b with
  | nil => rfl
  | cons item items ih =>
    obtain ⟨b', hstep, hrest⟩ := exists_of_bind_eq_ok h
    obtain ⟨a, rfl, -⟩ := exists_of_bind_eq_ok hstep
    exact congrArg (List.cons (Except.ok a)) (ih hrest)

end Listing

namespace Document

variable {t t' : Table} {owners : Text × Text}

/-! ## What going through items has done -/

theorem addMember_eq_ok {kind : MemberKind} {x : MemberItem}
    (h : addMember kind owners t x = .ok t') :
    (∃ s, x.signature = .ok s) ∧
      t' = (t.addMember kind (x.key owners.1) x.target).addEntry (x.entryIn t kind owners) := by
  obtain ⟨_, -, h⟩ := exists_of_bind_eq_ok h
  obtain ⟨s, hs, h⟩ := exists_of_bind_eq_ok h
  cases h
  refine ⟨⟨s, hs⟩, ?_⟩
  rw [MemberItem.entryIn, hs]
  cases kind <;> rfl

/-- The table with the names of members of one kind put into it one after the other. -/
def withNames (t : Table) (kind : MemberKind) (names : List (Text × Text)) : Table :=
  match kind with
  | .field => { t with fields := t.fields.insertAll names }
  | .method => { t with methods := t.methods.insertAll names }

theorem withNames_eq_self {kind : MemberKind} {names : List (Text × Text)}
    (h : ∀ p ∈ names, (kind.names t).get? p.1 = some p.2) : withNames t kind names = t := by
  have hnames : (kind.names t).insertAll names = kind.names t :=
    OrderedMap.insertAll_eq_self_iff.2 fun k v hv => h (k, v) (OrderedMap.mem_of_get?_ofList hv)
  cases kind with
  | field => exact congrArg (fun m => { t with fields := m }) hnames
  | method => exact congrArg (fun m => { t with methods := m }) hnames

theorem foldlM_addMember_eq_ok {kind : MemberKind} {xs : List MemberItem}
    (h : xs.foldlM (addMember kind owners) t = .ok t') :
    (∀ x ∈ xs, ∃ s, x.signature = .ok s) ∧
      t' = (withNames t kind (xs.map fun x => (x.key owners.1, x.target))).addEntries
        (xs.map (MemberItem.entryIn t kind owners)) := by
  induction xs generalizing t with
  | nil =>
    cases h
    exact ⟨fun x hx => absurd hx List.not_mem_nil, by cases kind <;> rfl⟩
  | cons x xs ih =>
    rw [List.foldlM_cons] at h
    obtain ⟨t₁, hx, hxs⟩ := exists_of_bind_eq_ok h
    obtain ⟨hsignature, rfl⟩ := addMember_eq_ok hx
    obtain ⟨hrest, rfl⟩ := ih hxs
    exact ⟨List.forall_mem_cons.2 ⟨hsignature, hrest⟩, by cases kind <;> rfl⟩

/-- The table with the rename of a class, if it was not there. -/
def withClass (t : Table) (c : ClassItem) : Table :=
  if t.classes.contains c.owner then t
  else t.addClass c.owner (Descriptor.internalName c.target) c.comment

/-- The table with the renames of the members of a class. -/
def withMembers (t : Table) (c : ClassItem) : Table :=
  withNames (withNames t .field (c.memberNames .field)) .method (c.memberNames .method)

/-- **What a class has added to a table**: its rename, those of its members, and their entries. -/
theorem addClass_eq_ok {c : ClassItem} (h : addClass t c = .ok t') :
    c.IsRead ∧ t' = (withMembers (withClass t c) c).addEntries (c.memberEntries (withClass t c)) := by
  obtain ⟨t₁, hrename, h⟩ := exists_of_bind_eq_ok h
  obtain ⟨t₂, hfields, hmethods⟩ := exists_of_bind_eq_ok h
  obtain ⟨_, -, hrename⟩ := exists_of_bind_eq_ok hrename
  obtain rfl : withClass t c = t₁ := Except.ok.inj hrename
  have hfieldItems := Listing.eq_map_values_of_fold hfields
  have hmethodItems := Listing.eq_map_values_of_fold hmethods
  rw [hfieldItems, Listing.fold_ok] at hfields
  rw [hmethodItems, Listing.fold_ok] at hmethods
  obtain ⟨hfieldRead, rfl⟩ := foldlM_addMember_eq_ok hfields
  obtain ⟨hmethodRead, rfl⟩ := foldlM_addMember_eq_ok hmethods
  constructor
  · rintro (_ | _)
    · rw [hfieldItems]
      exact List.forall_mem_map.2 hfieldRead
    · rw [hmethodItems]
      exact List.forall_mem_map.2 hmethodRead
  · rw [ClassItem.memberEntries, Table.addEntries_append]
    rfl

/-- The classes of a document that makes a table were all read. -/
theorem isRead_of_table {d : Document} (h : d.table = .ok t) :
    ∀ item ∈ d, Ends ClassItem.IsRead (fun _ => False) item := by
  have hitems := Listing.eq_map_values_of_fold h
  rw [table, hitems, Listing.fold_ok] at h
  rw [hitems, List.forall_mem_map]
  generalize Listing.values d = cs at h
  generalize Table.empty = start at h
  induction cs generalizing start with
  | nil => exact fun c hc => absurd hc List.not_mem_nil
  | cons c cs ih =>
    rw [List.foldlM_cons] at h
    obtain ⟨t₁, hclass, hrest⟩ := exists_of_bind_eq_ok h
    exact List.forall_mem_cons.2 ⟨(addClass_eq_ok hclass).1, ih t₁ hrest⟩

theorem holds_of_table {d : Document} (h : d.table = .ok t) : t.Holds d.renames := by
  have hends := ends_table_of_read (isRead_of_table h)
  rw [h] at hends
  exact hends

/-! ## A class that is listed once more -/

theorem withClass_eq_self {c : ClassItem} {rs : List Rename} (h : t.Holds rs)
    (hc : c.renames ⊆ rs) : withClass t c = t := by
  have hname : t.classes.get? c.owner = some (Descriptor.internalName c.target) :=
    (h c.rename).2 (hc List.mem_cons_self)
  exact if_pos (by rw [OrderedMap.contains, hname]; rfl)

theorem withMembers_eq_self {c : ClassItem} {rs : List Rename} (h : t.Holds rs)
    (hc : c.renames ⊆ rs) : withMembers t c = t := by
  have hnames : ∀ kind, ∀ p ∈ c.memberNames kind, (kind.names t).get? p.1 = some p.2 := by
    intro kind p hp
    obtain ⟨x, hx, rfl⟩ := List.mem_map.1 hp
    have hmem : x.rename kind c.owner ∈ c.renames :=
      ClassItem.mem_renames.2 (.inr ⟨kind, List.mem_map_of_mem hx⟩)
    rw [← kind.names_symbol]
    exact (h _).2 (hc hmem)
  rw [withMembers, withNames_eq_self (hnames .field), withNames_eq_self (hnames .method)]

theorem table_append (d : Document) (item : Except Fault ClassItem) :
    table (d ++ [item]) = d.table >>= fun t => item >>= addClass t := by
  unfold table Listing.fold
  rw [List.foldlM_append]
  congr 1
  funext t
  rw [List.foldlM_cons]
  exact bind_pure _

/-- **A class that is listed once more has its members put among the entries again**, by all the
classes of the document, and nothing else is changed. -/
theorem table_concat {d : Document} {c : ClassItem} (h : d.table = .ok t) (hc : c ∈ d.values) :
    table (d ++ [.ok c]) = .ok (t.addEntries (c.memberEntries t)) := by
  have hholds := holds_of_table h
  have hrenames : c.renames ⊆ d.renames := fun r hr => List.mem_flatMap.2 ⟨c, hc, hr⟩
  have hread : c.IsRead := by
    obtain ⟨item, hitem, hok⟩ := List.mem_filterMap.1 hc
    cases item with
    | error f => cases hok
    | ok c' =>
      cases hok
      exact isRead_of_table h _ hitem
  rw [table_append, h]
  show addClass t c = _
  -- What the copy declares is declared already, so it contradicts nothing.
  obtain ⟨t', hadd, -⟩ | ⟨f, -, kind, key, v, w, -, hv, hw, hne⟩ :=
    (ends_addClass_of_holds hholds hread).ok_or_error
  · rw [hadd, (addClass_eq_ok hadd).2, withClass_eq_self hholds hrenames,
      withMembers_eq_self hholds hrenames]
  · have hsub : d.renames ++ c.renames ⊆ d.renames :=
      List.append_subset.2 ⟨List.Subset.refl _, hrenames⟩
    exact absurd (hholds.name_eq (hsub hv) (hsub hw)) hne

/-- A copy of the class that was listed last changes nothing. -/
theorem table_append_last {d : Document} {c : ClassItem}
    (h : table (d ++ [.ok c]) = .ok t) : table (d ++ [.ok c] ++ [.ok c]) = .ok t := by
  have hc : c ∈ Listing.values (d ++ [.ok c]) := by
    rw [Listing.values, List.filterMap_append]
    exact List.mem_append_right _ List.mem_cons_self
  rw [table_concat h hc]
  congr 1
  -- The entries were put there just now, by the same classes.
  rw [table_append] at h
  obtain ⟨t₀, -, hadd⟩ := exists_of_bind_eq_ok h
  obtain ⟨-, rfl⟩ := addClass_eq_ok hadd
  rw [Table.addEntries_eq_self_iff]
  intro k e he
  show OrderedMap.get? (OrderedMap.insertAll _ _) k = some e
  rw [OrderedMap.get?_insertAll]
  have hsame : c.memberEntries ((withMembers (withClass t₀ c) c).addEntries
      (c.memberEntries (withClass t₀ c))) = c.memberEntries (withClass t₀ c) := rfl
  rw [hsame] at he
  rw [he]
  rfl

end Document

/-! ## The values of a document -/

/-- What reading items gives: those that are complete, and the faults. -/
def Listing.ofReads {α : Type} (reads : List (Except Fault (Option α))) : Listing α :=
  reads.filterMap fun
    | .ok none => none
    | .ok (some a) => some (.ok a)
    | .error f => some (.error f)

theorem Datum.listing_eq {α : Type} {read : Option Fields → Except Fault (Option α)} {d : Datum}
    {items : List (Option Fields)} (h : d.listed = .ok items) :
    d.listing read = .ofReads (items.map read) := by
  unfold listing Listing.ofReads
  rw [h, List.filterMap_map]
  rfl

/-- The one value lists the classes of the other, and at their end one of them once more, all of
them as they are read. -/
def Datum.AppendsCopy (classes classes' : Datum) (item : Option Fields) : Prop :=
  ∃ items items' item', classes.listed = .ok items ∧ classes'.listed = .ok (items' ++ [item']) ∧
    items'.map ClassItem.ofFields? = items.map ClassItem.ofFields? ∧ item ∈ items ∧
    ClassItem.ofFields? item' = ClassItem.ofFields? item

namespace Document

/-- **A copy of a class at the end of a document changes entries of its members at most**, and it
changes nothing just when the entries that it leaves of them, read by all the classes, were
there. -/
theorem table_append_copy {d d' : Datum} {fs fs' : Datum.Fields} {item : Option Datum.Fields}
    {t : Table} (hfs : d.fields? = some fs) (hfs' : d'.fields? = some fs')
    (hcopy : (Datum.field "classes" fs).AppendsCopy (Datum.field "classes" fs') item)
    (h : (ofDatum d).table = .ok t) :
    ∃ copied t', ClassItem.ofFields? item = .ok copied ∧ (ofDatum d').table = .ok t' ∧
      t' = { t with entries := t'.entries } ∧
      (t' = t ↔ ∀ c ∈ copied, ∀ k e,
        (OrderedMap.ofList ((c.memberEntries t).map Entry.keyed)).get? k = some e →
          t.entries.get? k = some e) := by
  obtain ⟨items, items', item', hitems, hitems', hsame, hmem, hread⟩ := hcopy
  have hd : ofDatum d = .ofReads (items.map ClassItem.ofFields?) :=
    (ofDatum_eq hfs).trans (Datum.listing_eq hitems)
  have hd' : ofDatum d' = ofDatum d ++ .ofReads [ClassItem.ofFields? item] := by
    rw [ofDatum_eq hfs', Datum.listing_eq hitems', List.map_append, hsame, hd, List.map_singleton,
      hread]
    exact List.filterMap_append
  have hitem : ∀ x, x ∈ Listing.ofReads [ClassItem.ofFields? item] → x ∈ ofDatum d := by
    intro x hx
    rw [hd]
    obtain ⟨r, hr, hrx⟩ := List.mem_filterMap.1 hx
    rw [List.mem_singleton.1 hr] at hrx
    exact List.mem_filterMap.2 ⟨_, List.mem_map_of_mem hmem, hrx⟩
  rw [hd']
  cases hcopied : ClassItem.ofFields? item with
  | error f =>
    rw [hcopied] at hitem
    exact (isRead_of_table h _ (hitem (.error f) List.mem_cons_self)).elim
  | ok copied =>
    rw [hcopied] at hitem
    cases copied with
    | none =>
      refine ⟨none, t, rfl, ?_, rfl, iff_of_true rfl fun c hc => nomatch hc⟩
      rw [show Listing.ofReads [(.ok none : Except Fault (Option ClassItem))] = [] from rfl,
        List.append_nil]
      exact h
    | some c =>
      have hc : c ∈ (ofDatum d).values :=
        List.mem_filterMap.2 ⟨.ok c, hitem (.ok c) List.mem_cons_self, rfl⟩
      refine ⟨some c, t.addEntries (c.memberEntries t), rfl, table_concat h hc, rfl, ?_⟩
      rw [Table.addEntries_eq_self_iff]
      simp

/-! ## A copy of a class above another one -/

/-- Two documents of two classes, the first with a field of the second class. The other document
lists the first class once more. -/
def lateStore : Store :=
  let text (name : String) : Part := .atom (.text name.toList)
  ⟨0, #[
    .mapping [(.text "classes".toList, .link 2)],
    .mapping [(.text "classes".toList, .link 3)],
    .list [.link 4, .link 5],
    .list [.link 4, .link 5, .link 4],
    .mapping [(.text "obfuscated".toList, text "a"), (.text "readable".toList, text "x"),
      (.text "fields".toList, .link 6)],
    .mapping [(.text "obfuscated".toList, text "b"), (.text "readable".toList, text "y")],
    .list [.link 7],
    .mapping [(.text "obfuscated".toList, text "f"), (.text "readable".toList, text "g"),
      (.text "type".toList, text "Lb;")]]⟩

def lateClass : Datum.Fields :=
  [(.text "obfuscated".toList, .text ['a']), (.text "readable".toList, .text ['x']),
    (.text "fields".toList, .collection lateStore 6)]

def lateTable : Table :=
  (((Table.empty.addClass ['a'] ['x'] .null).addField "a/f".toList ['g']).addEntry
    (.ofMember .field ⟨['a'], ['f'], some (.text "Lb;".toList)⟩
      ⟨['x'], ['g'], some (.text "Lb;".toList)⟩ .null)).addClass ['b'] ['y'] .null

theorem table_append_copy_late :
    (ofDatum (.collection lateStore 0)).table = .ok lateTable ∧
    ∃ copied t', ClassItem.ofFields? (some lateClass) = .ok copied ∧
      (ofDatum (.collection lateStore 1)).table = .ok t' ∧
      t' = { lateTable with entries := t'.entries } ∧
      (t' = lateTable ↔ ∀ c ∈ copied, ∀ k e,
        (OrderedMap.ofList ((c.memberEntries lateTable).map Entry.keyed)).get? k = some e →
          lateTable.entries.get? k = some e) := by
  have htable : (ofDatum (.collection lateStore 0)).table = .ok lateTable := by rfl
  have hfields : (Datum.collection lateStore 0).fields? =
      some [(.text "classes".toList, .collection lateStore 2)] := rfl
  have hfields' : (Datum.collection lateStore 1).fields? =
      some [(.text "classes".toList, .collection lateStore 3)] := rfl
  have hcopy : (Datum.field "classes" [(.text "classes".toList, .collection lateStore 2)]).AppendsCopy
      (Datum.field "classes" [(.text "classes".toList, .collection lateStore 3)])
      (some lateClass) := ⟨_, [_, _], _, rfl, rfl, rfl, List.mem_cons_self, rfl⟩
  exact ⟨htable, table_append_copy hfields hfields' hcopy htable⟩

def lateText : Text :=
  ("classes:\n- {obfuscated: a, readable: x, fields: [{obfuscated: f, readable: g, type: Lb;}]}\n" ++
    "- {obfuscated: b, readable: y}\n").toList

def lateItem : Text :=
  "- {obfuscated: a, readable: x, fields: [{obfuscated: f, readable: g, type: Lb;}]}\n".toList

/-- A reader that knows the two documents. -/
def lateReader : DocumentReader := fun text =>
  if text = lateText then .ok (.collection lateStore 0)
  else if text = lateText ++ lateItem then .ok (.collection lateStore 1)
  else .error (.format .invalidDocument)

/-- Both tables of a text and another text, if there are any. -/
def bothTables (text text' : Text) : Except Fault (Table × Table) := do
  let t ← Table.ofText lateReader none .default text
  let t' ← Table.ofText lateReader none .default text'
  return (t, t')

theorem ends_bothTables_late :
    Ends (fun p => p.1.same? p.2 = some false) (fun _ => False)
      (bothTables lateText (lateText ++ lateItem)) := by
  decide +kernel

/-- A copy of the first class at the end of the text is not ignored. -/
theorem changed_lateText :
    ∃ t t', Table.ofText lateReader none .default lateText = .ok t ∧
      Table.ofText lateReader none .default (lateText ++ lateItem) = .ok t' ∧
      t.same? t' = some false := by
  obtain ⟨⟨t, t'⟩, hboth, hsame⟩ | ⟨f, -, hf⟩ := ends_bothTables_late.ok_or_error
  · obtain ⟨t, ht, hboth⟩ := exists_of_bind_eq_ok hboth
    obtain ⟨t', ht', hboth⟩ := exists_of_bind_eq_ok hboth
    cases hboth
    exact ⟨t, t', ht, ht', hsame⟩
  · exact hf.elim

end Document

end Renaming
