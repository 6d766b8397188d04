import Mathlib.Algebra.GroupWithZero.Nat
import Renaming.Assembly.Renamed
import Renaming.Proofs.Assembly.Place
import Renaming.Proofs.Assembly.Shape
import Renaming.Proofs.Table.Target

/-!
# `Proofs/Assembly/Substitution` — the passes as one substitution

Each pass reads the line the passes in front of it have left. All the same the four together are
one substitution: there are places of the *original* code, apart from each other and from every
literal, and the new line is the old one with the names at these places replaced by what the table
answers for the names *as they were spelled at first*. No answer is ever looked up again.

The invariant that carries this from pass to pass is `Progress`: each replaced piece stands in code,
holds no quote, and is a rename of the original code (`Replaces`). Since neither side of a replaced
piece holds a quote, the literals of the line now are the literals of the original one
(`after_textOf`), and since a shape is decided by its own characters, a shape found in the line now,
clear of what was replaced, is a shape of the original line.
-/

set_option autoImplicit false

namespace Renaming

namespace Table

/-- No name that the table puts in place of another holds a quote. -/
def QuoteFree (t : Table) : Prop := ∀ target, t.IsTarget target → '"' ∉ target

instance (t : Table) : Decidable t.QuoteFree :=
  decidable_of_iff (∀ target ∈ t.targets, '"' ∉ target)
    (forall_congr' fun _ => imp_congr isTarget_iff.symm Iff.rfl)

end Table

namespace Assembly

open Line

/-- A name in the code of a line with its new name: the place it has, the old and the new name. -/
inductive IsRename (t : Table) (owner code : Text) : Nat → Text → Text → Prop
  | ofClass {i n : Nat} {name : Text} (h : type? (code.drop i) = some (name, n)) :
      IsRename t owner code (i + 1) name (t.mapClass name)
  | ofOwner {i n : Nat} {r : Reference} (h : reference? (code.drop i) = some (r, n)) :
      IsRename t owner code (i + 1) r.owner (t.mapClass r.owner)
  | ofMember {i n : Nat} {r : Reference} (h : reference? (code.drop i) = some (r, n)) :
      IsRename t owner code (i + r.owner.length + 4) r.name (mapReference t r)
  | ofField {d : FieldDefinition} (h : fieldDefinition? code = some d) :
      IsRename t owner code d.place d.name (t.mapField owner d.name (some d.type))
  | ofMethod {d : MethodDefinition} (h : methodDefinition? code = some d) :
      IsRename t owner code d.place d.name (t.mapMethod owner d.name (some d.descriptor))

/-- What holds of each replaced piece of a line. -/
structure Replaces (t : Table) (owner code : Text) (k : Nat) (z : Zone) (old new : Text) :
    Prop where
  zone : z = .code
  ne_nil : old ≠ []
  quote : '"' ∉ old
  rename : IsRename t owner code k old new

/-- A list of edits as one substitution in the code of a line. -/
structure IsSubstitution (t : Table) (owner code : Text) (es : List Edit) : Prop where
  sorted : es.Pairwise fun a b => a.span.stop ≤ b.span.start
  inside : ∀ e ∈ es, e.span.start < e.span.stop ∧ e.span.stop ≤ code.length
  literal : ∀ e ∈ es, (literals code).any e.span.overlaps = false
  rename : ∀ e ∈ es, IsRename t owner code e.span.start (e.span.part code) e.replacement

section Passes

variable {t : Table} {owner code : Text}

/-! ## What comes into new names -/

theorem mapReference_eq (t : Table) (r : Reference) :
    mapReference t r = r.name ∨ t.IsTarget (mapReference t r) := by
  unfold mapReference
  split
  · exact Table.mapMethod_eq ..
  · exact Table.mapField_eq ..

theorem notMem_of_eq_or_isTarget {c : Char} (ht : ∀ target, t.IsTarget target → c ∉ target)
    {old new : Text} (h : new = old ∨ t.IsTarget new) (hc : c ∉ old) : c ∉ new := by
  rcases h with rfl | h
  · exact hc
  · exact ht new h

theorem notMem_mapClass {c : Char} (ht : ∀ target, t.IsTarget target → c ∉ target) {name : Text}
    (hc : c ∉ name) : c ∉ t.mapClass name := by
  have h : ∀ d ∈ t.mapClass name, d ≠ c := by
    refine Table.mapClass_forall (fun target htarget d hd e => ?_) (fun d hd e => ?_)
    · exact ht target htarget (e ▸ hd)
    · exact hc (e ▸ hd)
  exact fun hmem => h _ hmem rfl

/-- A character that is in no target comes into no name. -/
theorem IsRename.notMem {c : Char} (ht : ∀ target, t.IsTarget target → c ∉ target) {k : Nat}
    {old new : Text} (h : IsRename t owner code k old new) (hc : c ∉ old) : c ∉ new := by
  cases h with
  | ofClass | ofOwner => exact notMem_mapClass ht hc
  | ofField => exact notMem_of_eq_or_isTarget ht (Table.mapField_eq ..) hc
  | ofMethod => exact notMem_of_eq_or_isTarget ht (Table.mapMethod_eq ..) hc
  | ofMember => exact notMem_of_eq_or_isTarget ht (mapReference_eq ..) hc

/-! ## Lines between two passes -/

/-- The line between two passes: it said `code` at first, and what was replaced was rightly so. -/
structure Progress (t : Table) (owner code : Text) (l : Line) : Prop where
  source : l.source = code
  sound : Sound (Replaces t owner code) 0 .code l.pieces

theorem Progress.ofText (t : Table) (owner code : Text) :
    Progress t owner code (.ofText code) :=
  ⟨source_ofText code, sound_map_kept _ _ _ _⟩

/-- Quotes stand where they stood: the zone behind pieces is the same in both their texts. -/
theorem after_textOf (ht : t.QuoteFree) {k : Nat} {z : Zone} {ps : List Piece}
    (h : Sound (Replaces t owner code) k z ps) : z.after (textOf ps) = z.after (sourceOf ps) := by
  induction ps generalizing k z with
  | nil => rfl
  | cons p ps ih =>
    cases p with
    | kept c => exact ih h
    | replaced old new =>
      obtain ⟨hP, h⟩ := h
      obtain rfl := hP.zone
      have hnew : Zone.code.after new = .code := Zone.after_code (hP.rename.notMem ht hP.quote)
      have hold : Zone.code.after old = .code := Zone.after_code hP.quote
      rw [hold] at h
      rw [textOf_replaced, sourceOf_replaced, Zone.after_append, Zone.after_append, hnew, hold]
      exact ih h

/-- A free part of the line now is made of kept characters, and stands in no literal of it. -/
theorem exists_part_of_isFree {l : Line} {i : Nat} {w rest : Text} (hi : i ≤ l.text.length)
    (hw : w ≠ []) (hdrop : l.text.drop i = w ++ rest)
    (hfree : l.isFree ⟨i, i + w.length⟩ = true) :
    ∃ A B, l.pieces = A ++ (w.map .kept ++ B) ∧ (textOf A).length = i ∧
      Zone.code.after (textOf A) = .code ∧ '"' ∉ w := by
  have hlen : (l.text.take i).length = i := by rw [List.length_take]; omega
  have htext : textOf l.pieces = l.text.take i ++ (w ++ rest) := by
    rw [← hdrop, List.take_append_drop]; rfl
  simp only [isFree, blocked, List.any_append, Bool.not_eq_true', Bool.or_eq_false_iff] at hfree
  obtain ⟨hliteral, hreplaced⟩ := hfree
  obtain ⟨A, B, hps, hA, -⟩ := exists_kept_of_free hw htext fun s hs => by
    rw [Nat.zero_add, hlen]
    exact Bool.eq_false_iff.2 (List.any_eq_false.1 hreplaced s hs)
  have hquote : Zone.code.after (l.text.take i) = .code ∧ '"' ∉ w := by
    rw [← literals_any_overlaps_iff hw (t := rest), hlen, ← htext]
    exact hliteral
  exact ⟨A, B, hps, by rw [hA, hlen], by rw [hA]; exact hquote.1, hquote.2⟩

/-- A part of kept characters of the line now is a part of the source. -/
theorem Progress.source_part (ht : t.QuoteFree) {l : Line} (hl : Progress t owner code l)
    {A B : List Piece} {w : Text} (hps : l.pieces = A ++ (w.map .kept ++ B))
    (hz : Zone.code.after (textOf A) = .code) :
    code.drop (sourceOf A).length = w ++ sourceOf B ∧ Zone.code.after (sourceOf A) = .code := by
  have hsound := hl.sound
  rw [hps, sound_append] at hsound
  refine ⟨?_, ?_⟩
  · rw [← hl.source]
    show (sourceOf l.pieces).drop _ = _
    rw [hps, sourceOf_append, List.drop_left, sourceOf_append, sourceOf_map_kept]
  · rw [← after_textOf ht hsound.1]
    exact hz

/-- A character that is in no target does not come in. -/
theorem Progress.notMem_text {c : Char} (ht : t.FreeOf c) {l : Line}
    (hl : Progress t owner code l) (hc : c ∉ code) : c ∉ l.text := by
  rw [← hl.source] at hc
  exact hl.sound.notMem_textOf (fun hP hold => hP.rename.notMem ht hold) hc

/-- A name inside of a part of kept characters may be replaced. -/
theorem placed_of_kept {ps A B : List Piece} {u name v new : Text} {c : Char}
    (hps : ps = A ++ ((u ++ c :: (name ++ v)).map .kept ++ B))
    (hz : Zone.code.after (sourceOf A) = .code) (hq : '"' ∉ u ++ c :: (name ++ v))
    (hname : name ≠ [])
    (hr : IsRename t owner code ((sourceOf A).length + u.length + 1) name new) :
    Placed (Replaces t owner code) ps
      (editAt ((textOf A).length + u.length + 1) name.length new) := by
  refine ⟨A ++ u.map .kept, c, name, v.map .kept ++ B, by simp [hps], hname, ?_, ?_⟩
  · simp [editAt, Nat.add_assoc]
  · have hfront : '"' ∉ u ++ [c] := fun h => hq (by
      rw [List.append_cons]; exact List.mem_append_left _ h)
    have hmem : '"' ∉ name := fun h => hq (by simp [h])
    refine ⟨?_, hname, hmem, ?_⟩
    · rw [sourceOf_append, sourceOf_map_kept, List.append_assoc, Zone.after_append, hz]
      exact Zone.after_code hfront
    · rw [sourceOf_append, sourceOf_map_kept, List.length_append]
      exact hr

/-- **The step: edits of kept characters, each of them a rename of the source, keep the
invariant.** -/
theorem Progress.edit {l : Line} (hl : Progress t owner code l) {es : List Edit}
    (hes : es.Pairwise fun a b => a.span.stop < b.span.start)
    (h : ∀ e ∈ es, Placed (Replaces t owner code) l.pieces e) :
    Progress t owner code (l.edit es) :=
  ⟨by rw [source_edit, hl.source], (edited_edit hes h).sound hl.sound⟩

/-! ## The last two passes -/

/-- A class that was found ends in front of the next type. -/
theorem pairwise_scan_type (s : Text) :
    (scan type? s).Pairwise fun x y => x.1 + x.2.1.length + 1 < y.1 := by
  refine (pairwise_scan s).imp_of_mem ?_
  rintro ⟨i, name, n⟩ ⟨j, name', n'⟩ hx - hxy
  obtain ⟨-, hfind⟩ := find_of_mem_scan hx
  obtain ⟨-, -, -, rfl⟩ := type?_eq_some_iff.1 hfind
  dsimp only at hxy ⊢
  omega

/-- A member that was found ends in front of the next reference. -/
theorem pairwise_scan_reference (s : Text) :
    (scan reference? s).Pairwise fun x y =>
      x.1 + x.2.1.owner.length + x.2.1.name.length + 4 < y.1 := by
  refine (pairwise_scan s).imp_of_mem ?_
  rintro ⟨i, r, n⟩ ⟨j, r', n'⟩ hx - hxy
  obtain ⟨-, hfind⟩ := find_of_mem_scan hx
  obtain ⟨signature, -, -, hr, hn⟩ := reference?_eq_some_iff.1 hfind
  rw [Reference.length_text] at hn
  have hpos := hr.signature.length_pos
  dsimp only at hxy ⊢
  omega

/-- The edits of the pass over types are in order. -/
theorem pairwise_typePass (t : Table) (l : Line) :
    (typePassEdits t l.text l.isFree).Pairwise fun a b => a.span.stop < b.span.start := by
  rw [typePassEdits, List.pairwise_filterMap]
  refine (pairwise_scan_type l.text).imp ?_
  rintro ⟨i, name, n⟩ ⟨j, name', n'⟩ hxy e he e' he'
  dsimp only at hxy he he'
  split at he
  · split at he'
    · obtain rfl := Option.some.inj he
      obtain rfl := Option.some.inj he'
      simp only [editAt]
      omega
    · cases he'
  · cases he

/-- The edits of the pass over references are in order. -/
theorem pairwise_referencePass (t : Table) (l : Line) :
    (referencePassEdits t l.text l.isFree).Pairwise
        fun a b => a.span.stop < b.span.start := by
  rw [referencePassEdits, List.pairwise_flatMap]
  refine ⟨fun x hx => ?_, ?_⟩
  · -- the owner ends in front of the arrow, the member begins behind it
    dsimp only
    split
    · simp only [referenceEdits, editAt, List.pairwise_cons, List.mem_singleton, forall_eq]
      exact ⟨by omega, by simp⟩
    · exact .nil
  · refine (pairwise_scan_reference l.text).imp ?_
    rintro ⟨i, r, n⟩ ⟨j, r', n'⟩ hxy e he e' he'
    dsimp only at hxy he he'
    split at he
    · split at he'
      · simp only [referenceEdits, List.mem_cons, List.not_mem_nil, or_false] at he he'
        rcases he with rfl | rfl <;> rcases he' with rfl | rfl <;> simp only [editAt] <;> omega
      · cases he'
    · cases he

/-- The pass over types edits classes of types in code that nobody has touched. -/
theorem exists_part_of_mem_typePass {l : Line} {e : Edit}
    (he : e ∈ typePassEdits t l.text l.isFree) :
    ∃ A B name, l.pieces = A ++ (('L' :: (name ++ [';'])).map .kept ++ B) ∧
      Zone.code.after (textOf A) = .code ∧ '"' ∉ 'L' :: (name ++ [';']) ∧
      IsName isClassChar name ∧
      e = editAt ((textOf A).length + 1) name.length (t.mapClass name) := by
  rw [typePassEdits, List.mem_filterMap] at he
  obtain ⟨⟨i, name, n⟩, hmem, he⟩ := he
  dsimp only at he
  split at he
  · rename_i hcond
    obtain rfl := Option.some.inj he
    rw [Bool.and_eq_true] at hcond
    obtain ⟨hi, hfind⟩ := find_of_mem_scan hmem
    obtain ⟨rest, hdrop, hname, hn⟩ := type?_eq_some_iff.1 hfind
    have hw : l.text.drop i = ('L' :: (name ++ [';'])) ++ rest := by rw [hdrop]; simp
    have hlen : n = ('L' :: (name ++ [';'])).length := by rw [hn]; simp
    obtain ⟨A, B, hps, rfl, hz, hq⟩ := exists_part_of_isFree (Nat.le_of_lt hi)
      (List.cons_ne_nil _ _) hw (hlen ▸ hcond.1)
    exact ⟨A, B, name, hps, hz, hq, hname, rfl⟩
  · cases he

/-- The pass over references edits owners and members of references in code that nobody has
touched. -/
theorem exists_part_of_mem_referencePass {l : Line} {e : Edit}
    (he : e ∈ referencePassEdits t l.text l.isFree) :
    ∃ A B r signature, l.pieces = A ++ ((r.text signature).map .kept ++ B) ∧
      Zone.code.after (textOf A) = .code ∧ '"' ∉ r.text signature ∧ IsReference r signature ∧
      e ∈ referenceEdits t (textOf A).length r := by
  rw [referencePassEdits, List.mem_flatMap] at he
  obtain ⟨⟨i, r, n⟩, hmem, he⟩ := he
  dsimp only at he
  split at he
  · rename_i hfree
    obtain ⟨hi, hfind⟩ := find_of_mem_scan hmem
    obtain ⟨signature, rest, hdrop, hr, rfl⟩ := reference?_eq_some_iff.1 hfind
    obtain ⟨A, B, hps, rfl, hz, hq⟩ := exists_part_of_isFree (Nat.le_of_lt hi)
      (List.cons_ne_nil _ _) hdrop hfree
    exact ⟨A, B, r, signature, hps, hz, hq, hr, he⟩
  · cases he

/-- The character in front of the member of a reference is the tip of the arrow. -/
theorem Reference.text_eq (r : Reference) (signature : Text) :
    r.text signature = ('L' :: (r.owner ++ [';', '-'])) ++ '>' :: (r.name ++ signature) := by
  simp [Reference.text]

theorem Progress.typePass (ht : t.QuoteFree) {l : Line} (hl : Progress t owner code l) :
    Progress t owner code (typePass t l) := by
  refine hl.edit (pairwise_typePass t l) fun e he => ?_
  obtain ⟨A, B, name, hps, hz, hq, hname, rfl⟩ := exists_part_of_mem_typePass he
  obtain ⟨hsource, hz⟩ := hl.source_part ht hps hz
  have hfound : type? (code.drop (sourceOf A).length) = some (name, name.length + 2) := by
    rw [hsource]
    exact type?_eq_some_iff.2 ⟨sourceOf B, by simp, hname, rfl⟩
  exact @placed_of_kept t owner code _ A B [] name [';'] _ 'L' hps hz hq hname.ne_nil
    (.ofClass hfound)

theorem Progress.referencePass (ht : t.QuoteFree) {l : Line} (hl : Progress t owner code l) :
    Progress t owner code (referencePass t l) := by
  refine hl.edit (pairwise_referencePass t l) fun e he => ?_
  obtain ⟨A, B, r, signature, hps, hz, hq, hr, he⟩ := exists_part_of_mem_referencePass he
  obtain ⟨hsource, hz⟩ := hl.source_part ht hps hz
  have hfound : reference? (code.drop (sourceOf A).length) =
      some (r, (r.text signature).length) := by
    rw [hsource]
    exact reference?_eq_some_iff.2 ⟨signature, sourceOf B, rfl, hr, rfl⟩
  simp only [referenceEdits, List.mem_cons, List.not_mem_nil, or_false] at he
  rcases he with rfl | rfl
  · exact @placed_of_kept t owner code _ A B [] r.owner
      (';' :: '-' :: '>' :: (r.name ++ signature)) _ 'L' hps hz hq hr.owner.ne_nil
      (.ofOwner hfound)
  · have hlen : ('L' :: (r.owner ++ [';', '-'])).length = r.owner.length + 3 := by simp
    rw [r.text_eq] at hps hq
    have hplaced := @placed_of_kept t owner code _ A B ('L' :: (r.owner ++ [';', '-'])) r.name
      signature (mapReference t r) '>' hps hz hq hr.name.ne_nil
    rw [hlen] at hplaced
    exact hplaced (.ofMember hfound)

/-! ## The two passes over definitions -/

/-- The edits of a signature are in order. -/
theorem pairwise_typeEdits (f : Text → Text) (place : Nat) (s : Text) :
    (typeEdits f place s).Pairwise fun a b => a.span.stop < b.span.start := by
  rw [typeEdits, List.pairwise_filterMap]
  refine (pairwise_scan_type s).imp ?_
  rintro ⟨i, name, n⟩ ⟨j, name', n'⟩ hxy e he e' he'
  dsimp only at hxy he he'
  split at he
  · cases he
  · split at he'
    · cases he'
    · obtain rfl := Option.some.inj he
      obtain rfl := Option.some.inj he'
      simp only [editAt]
      omega

/-- An edit of a signature lies strictly inside of it, behind the letter of a class. -/
theorem exists_type_of_mem_typeEdits {f : Text → Text} {place : Nat} {s : Text} {e : Edit}
    (h : e ∈ typeEdits f place s) :
    ∃ u name v, s = u ++ 'L' :: (name ++ ';' :: v) ∧ IsName isClassChar name ∧ f name ≠ name ∧
      e = editAt (place + u.length + 1) name.length (f name) := by
  rw [typeEdits, List.mem_filterMap] at h
  obtain ⟨⟨i, name, n⟩, hmem, he⟩ := h
  obtain ⟨hi, hfind⟩ := find_of_mem_scan hmem
  obtain ⟨rest, hdrop, hname, -⟩ := type?_eq_some_iff.1 hfind
  dsimp only at he
  split at he
  · cases he
  · rename_i hne
    obtain rfl := Option.some.inj he
    refine ⟨s.take i, name, rest, ?_, hname, hne, ?_⟩
    · rw [← hdrop, List.take_append_drop]
    · rw [List.length_take, Nat.min_eq_left (Nat.le_of_lt hi)]

theorem bounds_of_mem_typeEdits {f : Text → Text} {place : Nat} {s : Text} {e : Edit}
    (h : e ∈ typeEdits f place s) : place < e.span.start ∧ e.span.stop < place + s.length := by
  obtain ⟨u, name, v, rfl, -, -, rfl⟩ := exists_type_of_mem_typeEdits h
  simp only [editAt, List.length_append, List.length_cons]
  omega

/-- The edits of a method's parameters and result all lie behind its name. -/
theorem MethodDefinition.parametersPlace_lt {f : Text → Text} (d : MethodDefinition) {e : Edit}
    (h : e ∈ typeEdits f d.parametersPlace d.parameters ++ typeEdits f d.resultPlace d.result) :
    d.parametersPlace < e.span.start := by
  rcases List.mem_append.1 h with h | h
  · exact (bounds_of_mem_typeEdits h).1
  · have hstart := (bounds_of_mem_typeEdits h).1
    simp only [MethodDefinition.resultPlace] at hstart
    omega

/-- The classes of a signature in a line in which nothing is replaced yet. A class that goes by its
own rename here has that same name everywhere. -/
theorem placed_of_mem_typeEdits {a s b : Text} {e : Edit} (hcode : code = a ++ (s ++ b))
    (hq : '"' ∉ a ++ s) (he : e ∈ typeEdits t.mapClassExact a.length s) :
    Placed (Replaces t owner code) (code.map .kept) e := by
  obtain ⟨u, name, v, rfl, hname, hne, rfl⟩ := exists_type_of_mem_typeEdits he
  have hps : code.map Piece.kept =
      a.map .kept ++ ((u ++ 'L' :: (name ++ ';' :: v)).map .kept ++ b.map .kept) := by
    rw [hcode, List.map_append, List.map_append]
  have hz : Zone.code.after (sourceOf (a.map .kept)) = .code := by
    rw [sourceOf_map_kept]
    exact Zone.after_code fun h => hq (List.mem_append_left _ h)
  have hfound : type? (code.drop (a.length + u.length)) = some (name, name.length + 2) := by
    rw [hcode, ← List.drop_drop, List.drop_left, List.append_assoc, List.drop_left]
    exact type?_eq_some_iff.2 ⟨v ++ b, by simp, hname, rfl⟩
  have hplaced := @placed_of_kept t owner code _ _ _ u name (';' :: v)
    (t.mapClassExact name) 'L' hps hz (fun h => hq (List.mem_append_right _ h)) hname.ne_nil
  rw [textOf_map_kept, sourceOf_map_kept] at hplaced
  refine hplaced ?_
  rw [← Table.mapClass_of_mapClassExact_ne hne]
  exact .ofClass hfound

/-- The name in a definition, behind the blank that ends its lead. -/
theorem placed_of_definition {indent directive gap name v b new : Text} {c : Char}
    (hcode : code = definitionLead indent directive gap c ++ (name ++ v) ++ b)
    (hq : '"' ∉ definitionLead indent directive gap c ++ (name ++ v)) (hname : name ≠ [])
    (hr : IsRename t owner code (definitionLead indent directive gap c).length name new) :
    Placed (Replaces t owner code) (code.map .kept)
      (editAt (definitionLead indent directive gap c).length name.length new) := by
  have hlead : definitionLead indent directive gap c ++ (name ++ v) =
      (indent ++ (directive ++ gap)) ++ c :: (name ++ v) := by simp [definitionLead]
  have hlen : (definitionLead indent directive gap c).length =
      0 + (indent ++ (directive ++ gap)).length + 1 := by
    simp only [definitionLead, List.length_append, List.length_singleton]
    omega
  rw [hlead] at hcode hq
  rw [hlen] at hr ⊢
  have hps : code.map Piece.kept =
      [] ++ (((indent ++ (directive ++ gap)) ++ c :: (name ++ v)).map .kept ++ b.map .kept) := by
    rw [hcode, List.map_append, List.nil_append]
  exact @placed_of_kept t owner code _ [] _ _ name v new c hps rfl hq hname hr

theorem notMem_of_isFree_ofText {w b : Text} (hw : w ≠ [])
    (h : (ofText (w ++ b)).isFree ⟨0, w.length⟩ = true) : '"' ∉ w := by
  simp only [isFree, blocked, List.any_append, Bool.not_eq_true', Bool.or_eq_false_iff,
    text_ofText] at h
  refine (literals_any_overlaps_iff (a := []) (t := b) hw).1 ?_ |>.2
  rw [List.length_nil, Nat.zero_add]
  exact h.1

/-- Name and type of a defined field follow each other. -/
theorem FieldDefinition.pairwise_edits (t : Table) (owner : Text) (d : FieldDefinition) :
    (d.edits t owner).Pairwise fun a b => a.span.stop < b.span.start := by
  refine List.pairwise_cons.2 ⟨fun e he => ?_, pairwise_typeEdits ..⟩
  have := (bounds_of_mem_typeEdits he).1
  simp only [editAt, FieldDefinition.typePlace] at this ⊢
  omega

theorem FieldDefinition.placed_of_mem_edits (d : FieldDefinition) {e : Edit}
    (hd : fieldDefinition? code = some d) (hfree : (ofText code).isFree ⟨0, d.stop⟩ = true)
    (he : e ∈ d.edits t owner) : Placed (Replaces t owner code) (code.map .kept) e := by
  obtain ⟨indent, gap, c, rest, hcode, hplace, -, -, hname, -, -⟩ := fieldDefinition?_eq_some hd
  have hcode' : code = definitionLead indent ".field".toList gap c ++
      (d.name ++ ':' :: d.type) ++ rest := by rw [hcode]; simp
  have hstop : d.stop = (definitionLead indent ".field".toList gap c ++
      (d.name ++ ':' :: d.type)).length := by
    simp only [FieldDefinition.stop, FieldDefinition.typePlace, hplace, List.length_append,
      List.length_cons]
    omega
  have hq : '"' ∉ definitionLead indent ".field".toList gap c ++ (d.name ++ ':' :: d.type) :=
    notMem_of_isFree_ofText (b := rest) (by simp) (by rw [← hcode', ← hstop]; exact hfree)
  rcases List.mem_cons.1 he with rfl | he
  · have hr : IsRename t owner code d.place d.name _ := .ofField hd
    rw [hplace] at hr ⊢
    exact placed_of_definition hcode' hq hname.ne_nil hr
  · refine placed_of_mem_typeEdits (a := definitionLead indent ".field".toList gap c ++
      (d.name ++ [':'])) (s := d.type) (b := rest) (by rw [hcode]; simp) (by simpa using hq) ?_
    rw [show (definitionLead indent ".field".toList gap c ++ (d.name ++ [':'])).length =
      d.typePlace by simp [FieldDefinition.typePlace, hplace, Nat.add_assoc]]
    exact he

theorem pairwise_fieldPass (t : Table) (owner text : Text) (isFree : Span → Bool) :
    (fieldPassEdits t owner text isFree).Pairwise fun a b => a.span.stop < b.span.start := by
  unfold fieldPassEdits
  split
  · exact .nil
  · split
    · exact FieldDefinition.pairwise_edits ..
    · exact .nil

theorem placed_of_mem_fieldPass {e : Edit}
    (he : e ∈ fieldPassEdits t owner (ofText code).text (ofText code).isFree) :
    Placed (Replaces t owner code) (ofText code).pieces e := by
  rw [text_ofText] at he
  unfold fieldPassEdits at he
  split at he
  · cases he
  · rename_i d hd
    split at he
    · exact d.placed_of_mem_edits hd ‹_› he
    · cases he

theorem progress_fieldPass (t : Table) (owner code : Text) :
    Progress t owner code (fieldPass t owner (.ofText code)) :=
  (Progress.ofText t owner code).edit (pairwise_fieldPass ..) fun _ => placed_of_mem_fieldPass

/-- What stands in front of the name in a definition stays when the name is replaced. -/
theorem exists_text_edit {lead name b new : Text} {c : Char} {es : List Edit} :
    ∃ u, ((ofText (lead ++ c :: (name ++ b))).edit
      (editAt (lead.length + 1) name.length new :: es)).text = lead ++ c :: u := by
  have hps : (lead ++ c :: (name ++ b)).map Piece.kept =
      lead.map .kept ++ .kept c :: (name.map .kept ++ b.map .kept) := by simp
  have hplace : lead.length + 1 = 0 + (textOf (lead.map .kept)).length + 1 := by
    rw [textOf_map_kept, Nat.zero_add]
  refine ⟨new ++ textOf (editFrom (lead.length + 1 + name.length) es (b.map .kept)), ?_⟩
  show textOf (editFrom 0 _ ((lead ++ c :: (name ++ b)).map .kept)) = _
  rw [hps, editFrom_editAt hplace, textOf_append, textOf_map_kept, textOf_kept, textOf_replaced]

/-- A line in which the first pass replaced something defines a field, hence no method. -/
theorem fieldPass_eq_or (t : Table) (owner code : Text) :
    fieldPass t owner (.ofText code) = .ofText code ∨
      methodDefinition? (fieldPass t owner (.ofText code)).text = none := by
  cases hd : fieldDefinition? code with
  | none => exact .inl (fieldPass_of_none (by rwa [text_ofText]))
  | some d =>
    rw [fieldPass_of_some (by rwa [text_ofText])]
    split
    · refine .inr ?_
      obtain ⟨indent, gap, c, rest, hcode, hplace, hindent, -⟩ := fieldDefinition?_eq_some hd
      have hlead : ∀ u, definitionLead indent ".field".toList gap c ++ u =
          (indent ++ (".field".toList ++ gap)) ++ c :: u := fun u => by simp [definitionLead]
      have hlen : d.place = (indent ++ (".field".toList ++ gap)).length + 1 := by
        rw [hplace]
        simp only [definitionLead, List.length_append, List.length_singleton]
        omega
      rw [FieldDefinition.edits, hlen, hcode, hlead]
      obtain ⟨u, hu⟩ := @exists_text_edit (indent ++ (".field".toList ++ gap)) d.name
        (':' :: (d.type ++ rest)) (t.mapField owner d.name (some d.type)) c
        (typeEdits t.mapClassExact d.typePlace d.type)
      rw [hu, ← hlead]
      exact methodDefinition?_field indent gap u c hindent
    · exact .inl rfl

/-- Name, parameters and result of a defined method follow each other. -/
theorem MethodDefinition.pairwise_edits (t : Table) (owner : Text) (d : MethodDefinition) :
    (d.edits t owner).Pairwise fun a b => a.span.stop < b.span.start := by
  refine List.pairwise_cons.2 ⟨fun e he => ?_, List.pairwise_append.2
    ⟨pairwise_typeEdits .., pairwise_typeEdits .., fun e he e' he' => ?_⟩⟩
  · have hstart := d.parametersPlace_lt he
    simp only [editAt, MethodDefinition.parametersPlace] at hstart ⊢
    omega
  · have hend := (bounds_of_mem_typeEdits he).2
    have hstart := (bounds_of_mem_typeEdits he').1
    simp only [MethodDefinition.resultPlace] at hstart
    omega

theorem MethodDefinition.placed_of_mem_edits (d : MethodDefinition) {e : Edit}
    (hd : methodDefinition? code = some d) (hfree : (ofText code).isFree ⟨0, d.stop⟩ = true)
    (he : e ∈ d.edits t owner) : Placed (Replaces t owner code) (code.map .kept) e := by
  obtain ⟨indent, gap, c, rest, hcode, hplace, -, -, hname, -⟩ := methodDefinition?_eq_some hd
  have hcode' : code = definitionLead indent ".method".toList gap c ++
      (d.name ++ '(' :: (d.parameters ++ ')' :: d.result)) ++ rest := by rw [hcode]; simp
  have hstop : d.stop = (definitionLead indent ".method".toList gap c ++
      (d.name ++ '(' :: (d.parameters ++ ')' :: d.result))).length := by
    simp only [MethodDefinition.stop, MethodDefinition.resultPlace,
      MethodDefinition.parametersPlace, hplace, List.length_append, List.length_cons]
    omega
  have hq : '"' ∉ definitionLead indent ".method".toList gap c ++
      (d.name ++ '(' :: (d.parameters ++ ')' :: d.result)) :=
    notMem_of_isFree_ofText (b := rest) (by simp) (by rw [← hcode', ← hstop]; exact hfree)
  rcases List.mem_cons.1 he with rfl | he
  · have hr : IsRename t owner code d.place d.name _ := .ofMethod hd
    rw [hplace] at hr ⊢
    exact placed_of_definition hcode' hq hname.ne_nil hr
  rcases List.mem_append.1 he with he | he
  · refine placed_of_mem_typeEdits (a := definitionLead indent ".method".toList gap c ++
      (d.name ++ ['('])) (s := d.parameters) (b := ')' :: (d.result ++ rest))
      (by rw [hcode]; simp) (fun h => hq ?_) ?_
    · simp only [List.mem_append, List.mem_cons] at h ⊢
      tauto
    · rw [show (definitionLead indent ".method".toList gap c ++ (d.name ++ ['('])).length =
        d.parametersPlace by simp [MethodDefinition.parametersPlace, hplace, Nat.add_assoc]]
      exact he
  · refine placed_of_mem_typeEdits (a := definitionLead indent ".method".toList gap c ++
      (d.name ++ '(' :: (d.parameters ++ [')']))) (s := d.result) (b := rest)
      (by rw [hcode]; simp) (by simpa using hq) ?_
    rw [show (definitionLead indent ".method".toList gap c ++
      (d.name ++ '(' :: (d.parameters ++ [')']))).length = d.resultPlace by
        simp only [MethodDefinition.resultPlace, MethodDefinition.parametersPlace, hplace,
          List.length_append, List.length_cons, List.length_nil]
        omega]
    exact he

theorem pairwise_methodPass (t : Table) (owner text : Text) (isFree : Span → Bool) :
    (methodPassEdits t owner text isFree).Pairwise fun a b => a.span.stop < b.span.start := by
  unfold methodPassEdits
  split
  · exact .nil
  · split
    · exact MethodDefinition.pairwise_edits ..
    · exact .nil

theorem placed_of_mem_methodPass {e : Edit}
    (he : e ∈ methodPassEdits t owner (ofText code).text (ofText code).isFree) :
    Placed (Replaces t owner code) (ofText code).pieces e := by
  rw [text_ofText] at he
  unfold methodPassEdits at he
  split at he
  · cases he
  · rename_i d hd
    split at he
    · exact d.placed_of_mem_edits hd ‹_› he
    · cases he

theorem progress_methodPass_ofText (t : Table) (owner code : Text) :
    Progress t owner code (methodPass t owner (.ofText code)) :=
  (Progress.ofText t owner code).edit (pairwise_methodPass ..) fun _ => placed_of_mem_methodPass

theorem progress_methodPass (t : Table) (owner code : Text) :
    Progress t owner code (methodPass t owner (fieldPass t owner (.ofText code))) := by
  rcases fieldPass_eq_or t owner code with h | h
  · rw [h]
    exact progress_methodPass_ofText t owner code
  · rw [methodPass_of_none h]
    exact progress_fieldPass t owner code

/-- **The invariant holds of every line that went through all passes.** -/
theorem progress_renameLine (ht : t.QuoteFree) (owner code : Text) :
    Progress t owner code (renameLine t owner code) :=
  ((progress_methodPass t owner code).referencePass ht).typePass ht

/-! ## The edits that all passes together carried out -/

/-- The replacements of source text that pieces stand for, which begin at a place. -/
def editsFrom (k : Nat) : List Piece → List Edit
  | [] => []
  | .kept _ :: ps => editsFrom (k + 1) ps
  | .replaced old new :: ps => editAt k old.length new :: editsFrom (k + old.length) ps

theorem le_of_mem_editsFrom {k : Nat} {ps : List Piece} {e : Edit} (h : e ∈ editsFrom k ps) :
    k ≤ e.span.start ∧ e.span.start ≤ e.span.stop ∧
      e.span.stop ≤ k + (sourceOf ps).length := by
  induction ps generalizing k with
  | nil => cases h
  | cons p ps ih =>
    cases p with
    | kept c =>
      have := ih h
      simp only [sourceOf_kept, List.length_cons]
      omega
    | replaced old new =>
      rw [sourceOf_replaced, List.length_append]
      rcases List.mem_cons.1 h with rfl | h
      · simp only [editAt]
        omega
      · have := ih h
        omega

theorem pairwise_editsFrom (k : Nat) (ps : List Piece) :
    (editsFrom k ps).Pairwise fun a b => a.span.stop ≤ b.span.start := by
  induction ps generalizing k with
  | nil => exact .nil
  | cons p ps ih =>
    cases p with
    | kept c => exact ih (k + 1)
    | replaced old new =>
      exact List.pairwise_cons.2 ⟨fun e he => (le_of_mem_editsFrom he).1, ih _⟩

/-- A character in front of all edits stays. -/
theorem applyFrom_cons {k : Nat} {es : List Edit} (h : ∀ e ∈ es, k + 1 ≤ e.span.start ∧
    e.span.start ≤ e.span.stop) (c : Char) (s : Text) :
    applyFrom k es (c :: s) = c :: applyFrom (k + 1) es s := by
  cases es with
  | nil => rfl
  | cons e es =>
    obtain ⟨hstart, hstop⟩ := h e List.mem_cons_self
    rw [applyFrom, applyFrom, show e.span.start - k = e.span.start - (k + 1) + 1 by omega,
      show e.span.stop - k = e.span.stop - (k + 1) + 1 by omega]
    rfl

/-- Carried out on the source, these replacements give the text. -/
theorem applyFrom_editsFrom (k : Nat) (ps : List Piece) :
    applyFrom k (editsFrom k ps) (sourceOf ps) = textOf ps := by
  induction ps generalizing k with
  | nil => rfl
  | cons p ps ih =>
    cases p with
    | kept c =>
      rw [sourceOf_kept, textOf_kept, editsFrom, applyFrom_cons, ih]
      intro e he
      have := le_of_mem_editsFrom he
      exact ⟨this.1, this.2.1⟩
    | replaced old new =>
      rw [sourceOf_replaced, textOf_replaced, editsFrom, applyFrom]
      simp only [editAt, Nat.sub_self, List.take_zero, List.nil_append, Nat.add_sub_cancel_left,
        List.drop_left, ih]

theorem exists_piece_of_mem_editsFrom {k : Nat} {ps : List Piece} {e : Edit}
    (h : e ∈ editsFrom k ps) :
    ∃ A old new B, ps = A ++ .replaced old new :: B ∧
      e = editAt (k + (sourceOf A).length) old.length new := by
  induction ps generalizing k with
  | nil => cases h
  | cons p ps ih =>
    cases p with
    | kept c =>
      obtain ⟨A, old, new, B, rfl, rfl⟩ := ih h
      refine ⟨.kept c :: A, old, new, B, rfl, ?_⟩
      rw [sourceOf_kept, List.length_cons, show k + 1 + (sourceOf A).length =
        k + ((sourceOf A).length + 1) by omega]
    | replaced old new =>
      rcases List.mem_cons.1 h with rfl | h
      · exact ⟨[], old, new, ps, rfl, rfl⟩
      · obtain ⟨A, old', new', B, rfl, rfl⟩ := ih h
        refine ⟨.replaced old new :: A, old', new', B, rfl, ?_⟩
        rw [sourceOf_replaced, List.length_append, Nat.add_assoc]

/-- What the invariant says of the edits. -/
theorem Progress.isSubstitution {l : Line} (hl : Progress t owner code l) :
    IsSubstitution t owner code (editsFrom 0 l.pieces) := by
  -- each edit replaces the old name of one piece
  have piece : ∀ e ∈ editsFrom 0 l.pieces, ∃ a old b, code = a ++ (old ++ b) ∧
      e.span = ⟨a.length, a.length + old.length⟩ ∧
      Replaces t owner code a.length (Zone.code.after a) old e.replacement := by
    intro e he
    obtain ⟨A, old, new, B, hps, rfl⟩ := exists_piece_of_mem_editsFrom he
    have hsound := hl.sound
    rw [hps, sound_append] at hsound
    rw [Nat.zero_add] at hsound ⊢
    refine ⟨sourceOf A, old, sourceOf B, ?_, rfl, hsound.2.1⟩
    rw [← hl.source]
    show sourceOf l.pieces = _
    rw [hps, sourceOf_append, sourceOf_replaced]
  refine ⟨pairwise_editsFrom 0 _, fun e he => ?_, fun e he => ?_, fun e he => ?_⟩
  · obtain ⟨a, old, b, hcode, hspan, hP⟩ := piece e he
    have hpos := List.length_pos_iff.2 hP.ne_nil
    rw [hspan, hcode]
    simp only [List.length_append]
    omega
  · obtain ⟨a, old, b, hcode, hspan, hP⟩ := piece e he
    rw [hspan]
    conv_lhs => rw [hcode]
    exact (literals_any_overlaps_iff hP.ne_nil).2 ⟨hP.zone, hP.quote⟩
  · obtain ⟨a, old, b, hcode, hspan, hP⟩ := piece e he
    have hpart : e.span.part code = old := by
      rw [hspan, hcode, Span.part]
      simp only [List.drop_left, Nat.add_sub_cancel_left, List.take_left]
    rw [hpart, hspan]
    exact hP.rename

/-- The names that were changed, counted by the edits. -/
theorem countP_editsFrom {a code : Text} {ps : List Piece} (hcode : code = a ++ sourceOf ps) :
    (editsFrom a.length ps).countP (fun e => e.span.part code != e.replacement) =
      ps.countP Piece.isRenamed := by
  induction ps generalizing a with
  | nil => rfl
  | cons p ps ih =>
    cases p with
    | kept c =>
      have h := @ih (a ++ [c]) (by rw [hcode]; simp)
      rw [List.length_append] at h
      rw [editsFrom, List.countP_cons]
      exact h
    | replaced old new =>
      have h := @ih (a ++ old) (by rw [hcode]; simp)
      rw [List.length_append] at h
      have hpart : (editAt a.length old.length new).span.part code = old := by
        rw [hcode, Span.part, sourceOf_replaced]
        simp only [editAt, List.drop_left, Nat.add_sub_cancel_left, List.take_left]
      rw [editsFrom, List.countP_cons, List.countP_cons, h, hpart]
      rfl

/-- The line is its source with the edits carried out. -/
theorem Progress.text_eq {l : Line} (hl : Progress t owner code l) :
    l.text = applyEdits (editsFrom 0 l.pieces) code := by
  rw [← hl.source]
  exact (applyFrom_editsFrom 0 l.pieces).symm

theorem Progress.renamed_eq {l : Line} (hl : Progress t owner code l) :
    l.renamed = (editsFrom 0 l.pieces).countP fun e => e.span.part code != e.replacement := by
  have hsource : code = [] ++ sourceOf l.pieces := hl.source.symm
  exact (countP_editsFrom hsource).symm

end Passes

/-! ## A whole text -/

/-- Edits for each line of a text that explain all that was done to it. -/
structure Explains (t : Table) (owner text : Text) (edits : Text → List Edit) : Prop where
  /-- The edits of a line are one substitution in its code. -/
  substitution : ∀ line ∈ sourceLines text,
    IsSubstitution t owner (lineParts line).code (edits line)
  /-- The passes do nothing but carry them out. -/
  passes : ∀ line ∈ sourceLines text,
    (renameLine t owner (lineParts line).code).text =
      applyEdits (edits line) (lineParts line).code
  result : (rename t text).text = Text.joinWith '\n' ((sourceLines text).map fun line =>
    applyEdits (edits line) (lineParts line).code ++ (lineParts line).comment ++
      (lineParts line).ending)
  /-- The answer counts the edits that changed a name. -/
  count : (rename t text).renamed = ((sourceLines text).map fun line =>
    (edits line).countP fun e => e.span.part (lineParts line).code != e.replacement).sum

/-- **Renaming a text is one simultaneous substitution on each of its lines.** -/
theorem exists_explains {t : Table} (ht : t.QuoteFree) {text owner : Text}
    (howner : findClassName text = some owner) : ∃ edits, Explains t owner text edits := by
  have hl : ∀ line, Progress t owner (lineParts line).code
      (renameLine t owner (lineParts line).code) :=
    fun line => progress_renameLine ht owner (lineParts line).code
  have htext := fun line => (hl line).text_eq
  have hcount := fun line => (hl line).renamed_eq
  refine ⟨fun line => editsFrom 0 (renameLine t owner (lineParts line).code).pieces,
    fun line _ => (hl line).isSubstitution, fun line _ => htext line, ?_, ?_⟩
  · simp only [rename, howner, List.map_map, Function.comp_def, renamedLine, htext]
  · simp only [rename, howner, List.foldr_map, renamedLine, hcount, List.sum_eq_foldr]

/-- The class is renamed where it is declared and where it is referred to, and not in a literal. -/
theorem exists_explains_literal :
    let t := Table.empty.addClass "a/b".toList "c/D".toList .null
    let text := ".class La/b;\nconst-string v0, \"La/b;\"\niget v0, v1, La/b;->f:La/b;".toList
    t.QuoteFree ∧ findClassName text = some "a/b".toList ∧
      (∃ edits, Explains t "a/b".toList text edits) ∧
      (rename t text).text =
        ".class Lc/D;\nconst-string v0, \"La/b;\"\niget v0, v1, Lc/D;->f:Lc/D;".toList :=
  have ht : (Table.empty.addClass "a/b".toList "c/D".toList .null).QuoteFree := by decide
  ⟨ht, by decide, exists_explains ht (by decide), by decide +kernel⟩

end Assembly

end Renaming
