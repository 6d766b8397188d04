import Renaming.Proofs.Mapping.Direct
import Renaming.Proofs.Mapping.Written

/-!
# `Proofs/Mapping/Noted` — comments that survive

A comment belongs to the entry of its symbol, and a table keeps its entries by what they lead to. So
two symbols of one kind with one target have one place between them, and the later one gets it.
Whatever is in the comment, it is there unchanged as long as the entry is:

> a symbol with a comment has an entry with this very comment in the table that is loaded from the
> text of its mapping, just when it is the last to lead to its target (`ofText_tiny2Text`).

Whoever looks from the other side, by source or in the table turned round, finds the entry if
nothing else is found in its place.
-/

set_option autoImplicit false

namespace Renaming

namespace Table

/-! ## Entries found from their sources -/

/-- Of all entries of the list only this one is found by the key. -/
def IsOnly (renames : List Entry) (k : SymbolKind × Text) (e : Entry) : Prop :=
  ∃ before after, renames = before ++ e :: after ∧ ∀ e' ∈ before ++ after, k ∉ sourceKeys e'

variable {packages : OrderedMap Text Text} {renames : List Entry} {k : SymbolKind × Text}
  {e : Entry}

theorem IsOnly.eq_of_mem (h : IsOnly renames k e) {e' : Entry}
    (he' : e' ∈ (ofRenames packages renames).entries.values) (hk : k ∈ sourceKeys e') : e' = e := by
  obtain ⟨before, after, hsplit, hothers⟩ := h
  have hmem : e' ∈ before ++ after ∨ e' = e := by
    have := mem_renames_of_mem_values he'
    simp only [hsplit, List.mem_append, List.mem_cons] at this ⊢
    tauto
  exact hmem.resolve_left fun hmem => hothers e' hmem hk

section Kept

variable (hlast : IsLast renames e) (honly : IsOnly renames k e)

include hlast honly

theorem get?_bySource_of_isOnly (hk : k ∈ sourceKeys e) :
    (ofRenames packages renames).bySource.get? k = some e := by
  rw [bySource_eq]
  refine OrderedMap.get?_ofList_of_mem
    (mem_sourcePairs_iff.2 ⟨mem_values_of_isLast hlast, hk⟩) ?_
  rintro ⟨k', e'⟩ hpair rfl
  obtain ⟨he', hk'⟩ := mem_sourcePairs_iff.1 hpair
  exact honly.eq_of_mem he' hk'

/-- In the table turned round the entry stands under what was its source. -/
theorem get?_reverse_of_isOnly (hk : k = (e.kind, e.sourceKey)) :
    (ofRenames packages renames).reverse.entries.get? k = some e.reversed := by
  have hget : (OrderedMap.ofList ((ofRenames packages renames).entries.values.map fun e =>
      ((e.kind, e.sourceKey), e.reversed))).get? k = some e.reversed := by
    refine OrderedMap.get?_ofList_of_mem (p := (k, e.reversed))
      (List.mem_map.2 ⟨e, mem_values_of_isLast hlast, by rw [hk]⟩) ?_
    rintro q hq rfl
    obtain ⟨e', he', rfl⟩ := List.mem_map.1 hq
    exact congrArg Entry.reversed (honly.eq_of_mem he' List.mem_cons_self)
  -- what the reversal writes before the entries is overwritten
  show (List.foldl (fun (r : Table) (e : Entry) => r.addEntry e.reversed) _
    (ofRenames packages renames).entries.values).entries.get? _ = _
  rw [foldl_insertOne Table.entries (fun e : Entry => some ((e.kind, e.sourceKey), e.reversed)),
    List.filterMap_eq_map', OrderedMap.get?_insertAll]
  · exact congrArg (Option.or · _) hget
  · intro r e' _
    show r.entries.insert (e'.reversed.kind, e'.reversed.targetKey) e'.reversed = _
    rw [Entry.kind_reversed, Entry.targetKey_reversed]
    rfl

end Kept

end Table

namespace Mapping

/-- The entry of a symbol that has a comment. -/
inductive IsNoted (m : Mapping) (i j : Nat) (comment : Text) : Entry → Prop
  | ofClass {c : ClassRow} (hc : c ∈ m.classes.values) (hcomment : c.comment = some comment) :
    IsNoted m i j comment (.ofClass (nameIn c.names i) (nameIn c.names j) (.text comment))
  | ofMember {kind : MemberKind} {p : ClassRow × MemberRow} (hp : p ∈ m.members kind)
    (hcomment : p.2.comment = some comment) :
    IsNoted m i j comment
      (.ofMember kind (.ofKey (m.keyIn i p)) (.ofKey (m.keyIn j p)) (.text comment))

/-- The symbol is one of the rows that a table is made of. -/
theorem IsNoted.isEntry {m : Mapping} {i j : Nat} {comment : Text} {e : Entry}
    (h : m.IsNoted i j comment e) : m.IsEntry i j e := by
  cases h with
  | ofClass hc hcomment =>
    have hentry := IsEntry.ofClass (i := i) (j := j) hc
    rwa [classEntry, hcomment] at hentry
  | ofMember hp hcomment =>
    have hentry := IsEntry.ofMember (i := i) (j := j) hp
    rwa [memberEntry, hcomment] at hentry

namespace IsPlain

variable {m : Mapping} (h : m.IsPlain)

include h

theorem exists_isPlain {c : ClassRow} (hc : c ∈ m.classes.values) :
    ∃ first, c.IsPlain m.namespaces.length first := by
  obtain ⟨p, hp, rfl⟩ := List.mem_map.1 hc
  exact ⟨p.1, h.classes p hp⟩

theorem isPlain_member {kind : MemberKind} {p : ClassRow × MemberRow} (hp : p ∈ m.members kind) :
    p.2.IsPlain m.namespaces.length := by
  obtain ⟨hc, hrow⟩ := mem_members.1 hp
  obtain ⟨first, hplain⟩ := h.exists_isPlain hc
  exact hplain.members kind p.2 hrow

theorem complete : m.Complete where
  packages := h.packages
  declared c hc := (h.exists_isPlain hc).elim fun _ hplain => hplain.declared
  classNames c hc i hi := (h.exists_isPlain hc).elim fun _ hplain => hplain.names.nameAt_ne_none hi
  memberNames kind p hp i hi := (h.isPlain_member hp).names.nameAt_ne_none hi
  described p hp := by
    obtain ⟨d, hd, -⟩ := (h.isPlain_member hp).descriptor
    rw [Option.mem_def.1 hd]
    exact nofun

/-- The table that is loaded from the text of the mapping. -/
theorem exists_ofText (read : DocumentReader) {filename : Option Text}
    (hfilename : ∀ name ∈ filename, Format.ofSuffix? (Format.suffix name) = none) {step : Step}
    (hsource : ∀ name ∈ step.source, name ∈ m.namespaces)
    (htarget : ∀ name ∈ step.target, name ∈ m.namespaces) :
    ∃ i j, m.tiers step.source step.target = .ok (i, j) ∧
      Table.ofText read filename step m.tiny2Text =
        .ok (step.direct (.ofRenames .empty (m.entriesInOrder i j))) := by
  have htiered : m.isTiered = true := by
    rw [isTiered, h.format]
    rfl
  have hne : m.namespaces ≠ [] :=
    List.ne_nil_of_length_pos (Nat.lt_of_lt_of_le Nat.two_pos h.two_le)
  obtain ⟨i, hi, j, hj, htiers⟩ := exists_tiers htiered hne hsource htarget
  refine ⟨i, j, htiers, ?_⟩
  have htable : m.table step.source step.target =
      .ok (.ofRenames .empty (m.entriesInOrder i j)) := by
    rw [table_eq_of_namespaces fun _ => hne, htiers, ← h.complete.tableBetween_eq_ofRenames hi hj]
    rfl
  have hformat : Table.ofFormat read .tiny2 step m.tiny2Text =
      .ok (.ofRenames .empty (m.entriesInOrder i j)) := by
    show (ofTiny2 m.tiny2Text >>= fun m => m.table step.source step.target) = _
    rw [h.ofTiny2_tiny2Text]
    exact htable
  rw [Table.ofText, h.detect_tiny2Text hfilename]
  show (Table.ofFormat read .tiny2 step m.tiny2Text >>= _) = _
  rw [hformat]
  rfl

end IsPlain

/-- **A comment that is written in Tiny v2 is loaded unchanged**, if its symbol is the last to lead
to its target. Then it is found by source as well, and in the table turned round, wherever no other
symbol is found. -/
theorem ofText_tiny2Text {m : Mapping} (h : m.IsPlain) (read : DocumentReader) {filename : Option Text}
    (hfilename : ∀ name ∈ filename, Format.ofSuffix? (Format.suffix name) = none) {step : Step}
    (hsource : ∀ name ∈ step.source, name ∈ m.namespaces)
    (htarget : ∀ name ∈ step.target, name ∈ m.namespaces) :
    ∃ i j t, m.tiers step.source step.target = .ok (i, j) ∧
      Table.ofText read filename step m.tiny2Text = .ok (step.direct t) ∧
      ∀ comment e, m.IsNoted i j comment e →
        e ∈ m.entriesInOrder i j ∧
        (t.entries.get? (e.kind, e.targetKey) = some e ↔ Table.IsLast (m.entriesInOrder i j) e) ∧
        (Table.IsLast (m.entriesInOrder i j) e →
          ∀ k ∈ Table.sourceKeys e, Table.IsOnly (m.entriesInOrder i j) k e →
            t.bySource.get? k = some e ∧
            (k = (e.kind, e.sourceKey) → t.reverse.entries.get? k = some e.reversed)) := by
  obtain ⟨i, j, htiers, htable⟩ := h.exists_ofText read hfilename hsource htarget
  refine ⟨i, j, _, htiers, htable, ?_⟩
  intro comment e he
  refine ⟨mem_entriesInOrder.2 he.isEntry, Table.get?_entries_ofRenames_iff, ?_⟩
  intro hlast k hk honly
  exact ⟨Table.get?_bySource_of_isOnly hlast honly hk, Table.get?_reverse_of_isOnly hlast honly⟩

/-- A class, a field and a method whose comments are full of what is escaped. -/
theorem ofText_tiny2Text_escaped :
    let names (l : List String) : List (Option Text) := l.map fun s => some s.toList
    let ofClass := "tab\tand \\n, then\nmore".toList
    let ofField := "#\r\n".toList
    let ofMethod := "\\\x00 c\t".toList
    let field : MemberRow := ⟨names ["f", "the field"], some "La;".toList, some ofField⟩
    let method : MemberRow := ⟨names ["m", "run"], some "(La;)V".toList, some ofMethod⟩
    let c : ClassRow := ⟨names ["a", "x/A"], true, some ofClass, [field], [method]⟩
    let m : Mapping := ⟨.tiny2, ["official".toList, "named".toList], [], .ofList
      [("a".toList, c), ("b".toList, ⟨names ["b", "y/B"], true, none, [], []⟩)]⟩
    let filename := some "m.tiny".toList
    m.IsPlain ∧ (∀ name ∈ filename, Format.ofSuffix? (Format.suffix name) = none) ∧
    m.tiny2Text = ("tiny\t2\t0\tofficial\tnamed\nc\ta\tx/A\n" ++
      "\tc\ttab\\tand \\\\n, then\\nmore\n" ++
      "\tf\tLa;\tf\tthe field\n\t\tc\t#\\r\\n\n" ++
      "\tm\t(La;)V\tm\trun\n\t\tc\t\\\\\\0 c\\t\nc\tb\ty/B\n").toList ∧
    ∃ t, Table.ofText .refuses filename .default m.tiny2Text = .ok t ∧
      (∃ e, t.findClassEntry? "a".toList = some e ∧ e.comment = .text ofClass) ∧
      (∃ e, t.findFieldEntry? "a".toList "f".toList none = some e ∧ e.comment = .text ofField) ∧
      ∃ e, t.findMethodEntry? "a".toList "m".toList (some "(La;)V".toList) = some e ∧
        e.comment = .text ofMethod := by
  intro names ofClass ofField ofMethod field method c m filename
  have h : m.IsPlain := by decide +kernel
  have hfilename : ∀ name ∈ filename, Format.ofSuffix? (Format.suffix name) = none := by
    decide +kernel
  let e₁ : Entry := .ofClass "a".toList "x/A".toList (.text ofClass)
  let e₂ : Entry := .ofClass "b".toList "y/B".toList .null
  let e₃ : Entry := .ofMember .field (.ofKey ⟨"a".toList, "f".toList, some "La;".toList⟩)
    (.ofKey ⟨"x/A".toList, "the field".toList, some "Lx/A;".toList⟩) (.text ofField)
  let e₄ : Entry := .ofMember .method (.ofKey ⟨"a".toList, "m".toList, some "(La;)V".toList⟩)
    (.ofKey ⟨"x/A".toList, "run".toList, some "(Lx/A;)V".toList⟩) (.text ofMethod)
  have hentries : m.entriesInOrder 0 1 = [e₁, e₂, e₃, e₄] := rfl
  have hclass : m.IsNoted 0 1 ofClass e₁ := .ofClass (c := c) List.mem_cons_self rfl
  have hfield : m.IsNoted 0 1 ofField e₃ :=
    .ofMember (p := (c, field)) (mem_members.2 ⟨List.mem_cons_self, List.mem_cons_self⟩) rfl
  have hmethod : m.IsNoted 0 1 ofMethod e₄ :=
    .ofMember (p := (c, method)) (mem_members.2 ⟨List.mem_cons_self, List.mem_cons_self⟩) rfl
  obtain ⟨i, j, t, htiers, ht, hnoted⟩ :=
    @ofText_tiny2Text m h .refuses filename hfilename .default nofun nofun
  have htiers' : m.tiers none none = .ok (0, 1) := rfl
  obtain ⟨rfl, rfl⟩ := Prod.mk.inj (Except.ok.inj (htiers'.symm.trans htiers))
  rw [hentries] at hnoted
  refine ⟨h, hfilename, by decide +kernel, t, ht, ⟨e₁, ?_, rfl⟩, ⟨e₃, ?_, rfl⟩, ⟨e₄, ?_, rfl⟩⟩
  · exact ((hnoted ofClass e₁ hclass).2.2 ⟨[], _, rfl, by decide +kernel⟩ (.ofClass, "a".toList)
      (by decide +kernel) ⟨[], _, rfl, by decide +kernel⟩).1
  · exact ((hnoted ofField e₃ hfield).2.2 ⟨[e₁, e₂], _, rfl, by decide +kernel⟩
      (.ofField, "a/f".toList) (by decide +kernel) ⟨[e₁, e₂], _, rfl, by decide +kernel⟩).1
  · exact ((hnoted ofMethod e₄ hmethod).2.2 ⟨[e₁, e₂, e₃], _, rfl, by decide +kernel⟩
      (.ofMethod, "a/m (La;)V".toList) (by decide +kernel)
      ⟨[e₁, e₂, e₃], _, rfl, by decide +kernel⟩).1

/-- Two classes with one target: the second one takes the place of the first, and its comment is
lost. -/
theorem comment_overtaken :
    let names (l : List String) : List (Option Text) := l.map fun s => some s.toList
    let note := "first".toList
    let m : Mapping := ⟨.tiny2, ["official".toList, "named".toList], [], .ofList
      [("a".toList, ⟨names ["a", "x"], true, some note, [], []⟩),
        ("b".toList, ⟨names ["b", "x"], true, some "second".toList, [], []⟩)]⟩
    let e : Entry := .ofClass "a".toList "x".toList (.text note)
    m.IsPlain ∧ m.IsNoted 0 1 note e ∧
      m.tiny2Text = ("tiny\t2\t0\tofficial\tnamed\n" ++
        "c\ta\tx\n\tc\tfirst\nc\tb\tx\n\tc\tsecond\n").toList ∧
      ∃ t, Table.ofText .refuses none .default m.tiny2Text = .ok t ∧ t.findClassEntry? "a".toList = none ∧
        ∀ e' ∈ t.entries.values, e'.sourceName ≠ "a".toList ∧
          e'.comment.same? (.text note) = some false := by
  intro names note m e
  refine ⟨by decide +kernel, ?_, by decide +kernel, _, rfl, rfl, ?_⟩
  · exact .ofClass (c := ⟨names ["a", "x"], true, some note, [], []⟩) List.mem_cons_self rfl
  · intro e' he'
    rw [List.mem_singleton.1 he']
    exact ⟨by decide, rfl⟩

end Mapping

end Renaming
