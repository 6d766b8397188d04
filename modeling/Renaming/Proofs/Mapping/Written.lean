import Renaming.Proofs.Mapping.Owner
import Renaming.Proofs.Mapping.Rows
import Renaming.Proofs.Mapping.Tiered

/-!
# `Proofs/Mapping/Written` — a mapping written in Tiny v2

Tiny v2 is the one notation of rows in which symbols have comments. A comment stands in a row of
its own below its class or its member, and which of them that is follows from the rows read before.
What would break a row apart is escaped in it (`unescape_escape`), except for the rarer ends of a
line, for which there is no escape. Names are not escaped, so they have neither tabs nor line ends.

> A mapping of such names and comments is read from its text as it was written
> (`ofTiny2_tiny2Text`).
-/

set_option autoImplicit false

namespace Renaming

open Mapping

namespace Tiny

/-! ## Escapes -/

theorem unescape_cons {c : Char} (hc : c ≠ '\\') (t : Text) :
    unescape (c :: t) = c :: unescape t := by
  rw [unescape]
  rintro - - h -
  exact hc h

/-- **An escaped text stands for the text.** -/
theorem unescape_escape (t : Text) : unescape (escape t) = t := by
  fun_induction escape t with
  | case1 => rfl
  | case2 r ih => exact congrArg (List.cons '\\') ih
  | case3 r ih => exact congrArg (List.cons '\n') ih
  | case4 r ih => exact congrArg (List.cons '\r') ih
  | case5 r ih => exact congrArg (List.cons '\t') ih
  | case6 r ih => exact congrArg (List.cons '\x00') ih
  | case7 c r hc _ _ _ _ ih => rw [unescape_cons hc, ih]

/-- Behind the escapes stands only what needs none. -/
theorem mem_escape {c : Char} {t : Text} (h : c ∈ escape t) :
    c ∈ ['\\', 'n', 'r', 't', '0'] ∨ c ∈ t ∧ c ≠ '\n' ∧ c ≠ '\r' ∧ c ≠ '\t' := by
  fun_induction escape t with
  | case1 => cases h
  | case7 d r _ hfeed hreturn htab _ ih =>
    rcases List.mem_cons.1 h with rfl | h
    · exact .inr ⟨List.mem_cons_self, hfeed, hreturn, htab⟩
    · exact (ih h).imp id (And.imp_left (List.mem_cons_of_mem _))
  | _ r ih =>
    rcases List.mem_cons.1 h with rfl | h
    · exact .inl (by decide)
    · rcases List.mem_cons.1 h with rfl | h
      · exact .inl (by decide)
      · exact (ih h).imp id (And.imp_left (List.mem_cons_of_mem _))

end Tiny

/-- A text that a comment row can hold: it has no ends of a line but those that are escaped. -/
def Text.IsNote (t : Text) : Prop := ∀ c ∈ t, isLineBoundary c = true → c = '\n' ∨ c = '\r'

instance (t : Text) : Decidable t.IsNote := List.decidableBAll _ t

theorem isColumn_escape {t : Text} (ht : t.IsNote) : IsColumn (Tiny.escape t) := by
  constructor
  · intro htab
    rcases Tiny.mem_escape htab with h | ⟨-, -, -, h⟩
    · exact absurd h (by decide)
    · exact h rfl
  · intro c hc
    rcases Tiny.mem_escape hc with h | ⟨h, hfeed, hreturn, -⟩
    · simp only [List.mem_cons, List.not_mem_nil, or_false] at h
      rcases h with rfl | rfl | rfl | rfl | rfl <;> rfl
    · cases hboundary : Text.isLineBoundary c with
      | false => rfl
      | true => exact ((ht c h hboundary).elim hfeed hreturn).elim

/-! ## What is written -/

/-- The names are all there, and each of them can stand in a column. -/
structure ArePlainNames (width : Nat) (names : List (Option Text)) : Prop where
  length : names.length = width
  present : ∀ name ∈ names, ∃ w ∈ name, IsName w

/-- A field or method that can be written in a row, with a comment behind it. -/
structure MemberRow.IsPlain (width : Nat) (row : MemberRow) : Prop where
  names : ArePlainNames width row.names
  descriptor : ∃ d ∈ row.descriptor, IsColumn d
  comment : ∀ t ∈ row.comment, t.IsNote

/-- A class that can be written in a row, with its comment and its members behind it. -/
structure ClassRow.IsPlain (width : Nat) (first : Text) (c : ClassRow) : Prop where
  first : c.names.head? = some (some first)
  names : ArePlainNames width c.names
  declared : c.declared = true
  comment : ∀ t ∈ c.comment, t.IsNote
  members : ∀ kind : MemberKind, ∀ row ∈ kind.rows c, row.IsPlain width

/-- A mapping that can be written in Tiny v2. -/
structure Mapping.IsPlain (m : Mapping) : Prop where
  format : m.format = .tiny2
  packages : m.packages = []
  two_le : 2 ≤ m.namespaces.length
  namespaces : ∀ w ∈ m.namespaces, IsColumn w
  classes : ∀ p ∈ m.classes.toList, p.2.IsPlain m.namespaces.length p.1

instance (width : Nat) (names : List (Option Text)) : Decidable (ArePlainNames width names) :=
  decidable_of_iff (names.length = width ∧ ∀ name ∈ names, ∃ w ∈ name, IsName w)
    ⟨fun h => ⟨h.1, h.2⟩, fun h => ⟨h.1, h.2⟩⟩

instance (width : Nat) (row : MemberRow) : Decidable (row.IsPlain width) :=
  decidable_of_iff (ArePlainNames width row.names ∧ (∃ d ∈ row.descriptor, IsColumn d) ∧
      ∀ t ∈ row.comment, t.IsNote)
    ⟨fun h => ⟨h.1, h.2.1, h.2.2⟩, fun h => ⟨h.1, h.2, h.3⟩⟩

instance (width : Nat) (first : Text) (c : ClassRow) : Decidable (c.IsPlain width first) :=
  have (rows : List MemberRow) : Decidable (∀ row ∈ rows, row.IsPlain width) :=
    List.decidableBAll _ rows
  decidable_of_iff (c.names.head? = some (some first) ∧ ArePlainNames width c.names ∧
      c.declared = true ∧ (∀ t ∈ c.comment, t.IsNote) ∧ (∀ row ∈ c.fields, row.IsPlain width) ∧
      ∀ row ∈ c.methods, row.IsPlain width)
    ⟨fun ⟨hfirst, hnames, hdeclared, hcomment, hfields, hmethods⟩ =>
        ⟨hfirst, hnames, hdeclared, hcomment, fun | .field => hfields | .method => hmethods⟩,
      fun h => ⟨h.1, h.2, h.3, h.4, h.5 .field, h.5 .method⟩⟩

instance (m : Mapping) : Decidable m.IsPlain :=
  decidable_of_iff (m.format = .tiny2 ∧ m.packages = [] ∧ 2 ≤ m.namespaces.length ∧
      (∀ w ∈ m.namespaces, IsColumn w) ∧
      ∀ p ∈ m.classes.toList, p.2.IsPlain m.namespaces.length p.1)
    ⟨fun ⟨hformat, hpackages, hlength, hnamespaces, hclasses⟩ =>
        ⟨hformat, hpackages, hlength, hnamespaces, hclasses⟩,
      fun h => ⟨h.1, h.2, h.3, h.4, h.5⟩⟩

def nameColumns (names : List (Option Text)) : List Text := names.map fun name => name.getD []

/-- The row of a comment, behind this many tabs. -/
def noteRow (depth : Nat) (comment : Text) : Text :=
  List.replicate depth '\t' ++ tabRow [['c'], Tiny.escape comment]

/-- The row of a member, and that of its comment if it has one. -/
def MemberRow.tiny2Lines (kind : MemberKind) (row : MemberRow) : List Text :=
  tiny2MemberRow kind (row.descriptor.getD []) (nameColumns row.names) ::
    row.comment.toList.map (noteRow 2)

/-- The row of a class, that of its comment if it has one, and those of its members. -/
def ClassRow.tiny2Lines (c : ClassRow) : List Text :=
  tabRow (['c'] :: nameColumns c.names) :: (c.comment.toList.map (noteRow 1) ++
    (c.fields.flatMap (MemberRow.tiny2Lines .field) ++
      c.methods.flatMap (MemberRow.tiny2Lines .method)))

def Mapping.tiny2Text (m : Mapping) : Text :=
  Text.ofLines (tiny2Header m.namespaces :: m.classes.values.flatMap ClassRow.tiny2Lines)

namespace ArePlainNames

variable {width : Nat} {names : List (Option Text)} (h : ArePlainNames width names)

include h

theorem isName : ∀ w ∈ nameColumns names, IsName w := by
  intro w hw
  obtain ⟨name, hname, rfl⟩ := List.mem_map.1 hw
  obtain ⟨w, rfl, hplain⟩ := h.present name hname
  exact hplain

theorem map_some : (nameColumns names).map some = names := by
  have hsome : ∀ name ∈ names, some (name.getD []) = name := by
    intro name hname
    obtain ⟨w, rfl, -⟩ := h.present name hname
    rfl
  rw [nameColumns, List.map_map]
  exact (List.map_congr_left hsome).trans (List.map_id names)

theorem length_nameColumns : (nameColumns names).length = width :=
  (List.length_map _).trans h.length

theorem nameAt_ne_none {i : Nat} (hi : i < width) : nameAt names i ≠ none := by
  rw [← h.length] at hi
  obtain ⟨w, hw, hne, -⟩ := h.present names[i] (List.getElem_mem hi)
  have hname : names[i]? = some (some w) := by
    rw [List.getElem?_eq_getElem hi, Option.mem_def.1 hw]
  rw [nameAt, hname]
  cases w with
  | nil => exact absurd rfl hne
  | cons c r => exact nofun

end ArePlainNames

/-! ## How it is read -/

namespace Mapping

section Notes

variable {width : Nat} {s : Tiny2Reading} {owner comment : Text} (hcomment : comment.IsNote)

theorem tabDepth_noteRow (depth : Nat) (comment : Text) :
    tabDepth (noteRow depth comment) = depth := by
  induction depth with
  | zero => exact tabDepth_joinWith (by decide) '\t' _
  | succ depth ih => exact (tabDepth_tab _).trans (congrArg (· + 1) ih)

theorem drop_noteRow (depth : Nat) (comment : Text) :
    (noteRow depth comment).drop depth = tabRow [['c'], Tiny.escape comment] :=
  List.drop_left' (List.length_replicate)

theorem rowComment_note (comment : Text) :
    rowComment (tabRow [['c'], Tiny.escape comment]) = comment := by
  have hcut : Text.cut '\t' (tabRow [['c'], Tiny.escape comment]) =
      some (['c'], Tiny.escape comment) := Text.cut_eq_some_iff.2 ⟨rfl, by decide⟩
  rw [rowComment, hcut]
  exact Tiny.unescape_escape comment

include hcomment

theorem columns_note :
    Tiny.columns (tabRow [['c'], Tiny.escape comment]) = [['c'], Tiny.escape comment] :=
  columns_tabRow (List.forall_mem_cons.2 ⟨by decide,
    List.forall_mem_cons.2 ⟨isColumn_escape hcomment, nofun⟩⟩)

theorem isRow_noteRow (depth : Nat) : (noteRow depth comment).IsRow := by
  apply Text.isRow_append_joinWith _ (by decide) _ (by rfl)
  · cases depth <;> simp [List.replicate_succ]
  · intro c hc
    rw [List.eq_of_mem_replicate hc]
    rfl
  · exact List.forall_mem_cons.2 ⟨(isColumn_escape hcomment).2, nofun⟩

theorem tiny2Step_classNote (hs : s.current = some owner) (n : Nat) :
    tiny2Step width s (n, noteRow 1 comment) = .ok { s with
      mapping := s.mapping.onOwner owner fun c => { c with comment := some comment }
      member := none } := by
  simp only [tiny2Step, tabDepth_noteRow, drop_noteRow, hs, tiny2Member, columns_note hcomment,
    rowComment_note]

theorem tiny2Step_memberNote (hs : s.current = some owner) {kind : MemberKind}
    (hkind : s.member = some kind) (n : Nat) :
    tiny2Step width s (n, noteRow 2 comment) =
      .ok { s with mapping := s.mapping.commentMember owner kind comment } := by
  simp only [tiny2Step, tabDepth_noteRow, drop_noteRow, hs, hkind, columns_note hcomment,
    rowComment_note]

end Notes

/-! ### Comments and members of a class -/

end Mapping

/-- The class with a comment on the member of a kind that was added last. -/
def ClassRow.note (kind : MemberKind) (c : ClassRow) (comment : Text) : ClassRow :=
  match kind with
  | .field => { c with fields := commentLast comment c.fields }
  | .method => { c with methods := commentLast comment c.methods }

theorem commentLast_append (comment : Text) (rows : List MemberRow) (row : MemberRow) :
    commentLast comment (rows ++ [row]) = rows ++ [{ row with comment := some comment }] := by
  induction rows with
  | nil => rfl
  | cons r rows ih =>
    cases rows with
    | nil => rfl
    | cons r' rows => exact congrArg (List.cons r) ih

/-- A member and its comment behind it are the member with the comment. -/
theorem ClassRow.foldl_note_addRow (kind : MemberKind) (row : MemberRow) (c : ClassRow) :
    row.comment.toList.foldl (ClassRow.note kind) (c.addRow kind { row with comment := none }) =
      c.addRow kind row := by
  obtain ⟨names, descriptor, _ | comment⟩ := row
  · rfl
  · cases kind <;> simp [ClassRow.note, ClassRow.addRow, commentLast_append]

theorem ClassRow.foldl_addRow (kind : MemberKind) (rows : List MemberRow) (c : ClassRow) :
    rows.foldl (fun c row => c.addRow kind row) c =
      match kind with
      | .field => { c with fields := c.fields ++ rows }
      | .method => { c with methods := c.methods ++ rows } := by
  induction rows generalizing c with
  | nil => cases kind <;> simp
  | cons row rows ih =>
    rw [List.foldl_cons, ih]
    cases kind <;> simp [ClassRow.addRow]

/-- What the rows of a class make of the class that is there. -/
def ClassRow.written (c c' : ClassRow) : ClassRow :=
  c.methods.foldl (fun c row => c.addRow .method row)
    (c.fields.foldl (fun c row => c.addRow .field row)
      (c.comment.toList.foldl (fun c t => { c with comment := some t })
        { c' with names := c.names, declared := true }))

/-- A class without comment and members is made the class that is written. -/
theorem ClassRow.written_eq {c c' : ClassRow} (hdeclared : c.declared = true)
    (hcomment : c'.comment = none) (hfields : c'.fields = []) (hmethods : c'.methods = []) :
    c.written c' = c := by
  obtain ⟨names, declared, comment, fields, methods⟩ := c
  obtain rfl : declared = true := hdeclared
  obtain ⟨names', declared', comment', fields', methods'⟩ := c'
  obtain rfl : comment' = none := hcomment
  obtain rfl : fields' = [] := hfields
  obtain rfl : methods' = [] := hmethods
  rw [ClassRow.written, ClassRow.foldl_addRow, ClassRow.foldl_addRow]
  cases comment <;> rfl

namespace Mapping

section Reading

variable {width : Nat}

/-- The reader is at the rows below a class. -/
def IsBelow (owner : Text) (s : Tiny2Reading) : Prop :=
  s.escaped = false ∧ s.current = some owner

theorem addMember_eq (m : Mapping) (owner : Text) (p : MemberKind × MemberRow) :
    m.addMember owner p = m.onOwner owner (ClassRow.addRow p.1 p.2) := by
  obtain ⟨kind, row⟩ := p
  cases kind <;> rfl

/-- A member with its comment is added to its class. -/
theorem enters_tiny2_member {owner : Text} (kind : MemberKind) {row : MemberRow}
    (hrow : row.IsPlain width) :
    Enters (tiny2Step width) Tiny2Reading.mapping (IsBelow owner) (row.tiny2Lines kind)
      fun m => m.onOwner owner (ClassRow.addRow kind row) := by
  obtain ⟨names, _, comment⟩ := row
  obtain ⟨descriptor, rfl, hcolumn⟩ := hrow.descriptor
  intro s hs
  obtain ⟨hline, hstep⟩ := tiny2_member s hs.1 hs.2 kind hcolumn hrow.names.isName
    hrow.names.length_nameColumns
  -- the comment is that of this member as long as no other row comes in between
  have hnotes : Enters (tiny2Step width) Tiny2Reading.mapping
      (fun s => IsBelow owner s ∧ s.member = some kind) (comment.toList.map (noteRow 2))
      fun m => comment.toList.foldl (fun m t => m.commentMember owner kind t) m := by
    apply Enters.map
    intro t ht
    have hnote := hrow.comment t (Option.mem_toList.1 ht)
    apply Enters.row (isRow_noteRow hnote 2)
    rintro s ⟨hs, hmember⟩
    exact ⟨_, tiny2Step_memberNote hnote hs.2 hmember, ⟨hs, hmember⟩, rfl⟩
  obtain ⟨s', hreads, hs', hview⟩ := hnotes { s with
    mapping := s.mapping.addMember owner
      (kind, ⟨(nameColumns names).map some, some descriptor, none⟩)
    member := some kind } ⟨hs, rfl⟩
  refine ⟨s', .row hline hstep hreads, hs'.1, ?_⟩
  have hnote (m : Mapping) (t : Text) :
      m.commentMember owner kind t = m.onOwner owner fun c => c.note kind t := rfl
  simp only [hview, addMember_eq, hrow.names.map_some, hnote]
  rw [foldl_onOwner_onOwner s.mapping owner]
  congr 1
  funext c
  exact ClassRow.foldl_note_addRow kind ⟨names, some descriptor, comment⟩ c

/-- The members of a kind are added one after the other. -/
theorem enters_tiny2_members {owner : Text} (kind : MemberKind) {rows : List MemberRow}
    (hrows : ∀ row ∈ rows, row.IsPlain width) :
    Enters (tiny2Step width) Tiny2Reading.mapping (IsBelow owner)
      (rows.flatMap (MemberRow.tiny2Lines kind))
      fun m => rows.foldl (fun m row => m.onOwner owner (ClassRow.addRow kind row)) m :=
  Enters.flatMap fun row hrow => enters_tiny2_member kind (hrows row hrow)

/-- A class is made what was written of it. -/
theorem enters_tiny2_class {p : Text × ClassRow} (hp : p.2.IsPlain width p.1) :
    Enters (tiny2Step width) Tiny2Reading.mapping (fun s => s.escaped = false) p.2.tiny2Lines
      fun m => m.onOwner p.1 p.2.written := by
  obtain ⟨first, c⟩ := p
  obtain ⟨rest, hrest⟩ := List.head?_eq_some_iff.1 hp.first
  have hcolumns : nameColumns c.names = first :: nameColumns rest := by
    rw [hrest]
    rfl
  have hnames : ∀ w ∈ first :: nameColumns rest, IsName w := hcolumns ▸ hp.names.isName
  have hlength : (first :: nameColumns rest).length = width :=
    hcolumns ▸ hp.names.length_nameColumns
  have hline : (tabRow (['c'] :: nameColumns c.names)).IsRow :=
    isRow_tabRow (by decide) fun w hw => (hp.names.isName w hw).2
  have hnotes : Enters (tiny2Step width) Tiny2Reading.mapping (IsBelow first)
      (c.comment.toList.map (noteRow 1)) fun m => c.comment.toList.foldl
        (fun m t => m.onOwner first fun c => { c with comment := some t }) m := by
    apply Enters.map
    intro t ht
    have hnote := hp.comment t (Option.mem_toList.1 ht)
    apply Enters.row (isRow_noteRow hnote 1)
    intro s hs
    exact ⟨_, tiny2Step_classNote hnote hs.2, hs, rfl⟩
  have hfields := @enters_tiny2_members width first .field c.fields (hp.members .field)
  have hmethods := @enters_tiny2_members width first .method c.methods (hp.members .method)
  intro s hs
  obtain ⟨s', hreads, hs', hview⟩ := (hnotes.append (hfields.append hmethods))
    ⟨s.mapping.enter first ((first :: nameColumns rest).map some), false, some first, none⟩
    ⟨rfl, rfl⟩
  refine ⟨s', .row hline ?_ hreads, hs'.1, ?_⟩
  · intro n
    rw [hcolumns]
    exact tiny2Step_class s hs hnames hlength n
  · rw [hview, ← hcolumns, hp.names.map_some]
    show c.methods.foldl _ (c.fields.foldl _ (c.comment.toList.foldl _
      (s.mapping.onOwner first fun c' => { c' with names := c.names, declared := true }))) = _
    rw [foldl_onOwner_onOwner, foldl_onOwner_onOwner, foldl_onOwner_onOwner]
    rfl

end Reading

/-! ## The whole text -/

namespace IsPlain

variable {m : Mapping} (h : m.IsPlain)

include h

/-- The reader gets through all rows, and what it has then is the mapping. -/
theorem exists_reads : ∃ s, s.mapping = m ∧ Reads (tiny2Step m.namespaces.length)
    ⟨ofNamespaces .tiny2 m.namespaces, false, none, none⟩
    (m.classes.values.flatMap ClassRow.tiny2Lines) s := by
  have hclasses : Enters (tiny2Step m.namespaces.length) Tiny2Reading.mapping
      (fun s => s.escaped = false) (m.classes.toList.flatMap fun p => p.2.tiny2Lines)
      fun m' => m.classes.toList.foldl (fun m' p => m'.onOwner p.1 p.2.written) m' :=
    Enters.flatMap fun p hp => enters_tiny2_class (h.classes p hp)
  obtain ⟨s, hreads, -, hview⟩ := hclasses
    ⟨ofNamespaces .tiny2 m.namespaces, false, none, none⟩ rfl
  have hadded : m.classes.toList.foldl (fun m' p => m'.onOwner p.1 p.2.written)
      (ofNamespaces .tiny2 m.namespaces) =
        ⟨.tiny2, m.namespaces, [], OrderedMap.ofList m.classes.toList⟩ := by
    refine foldl_onOwner_eq (m := ofNamespaces .tiny2 m.namespaces) m.classes.nodup_keys ?_
    intro p hp
    exact ClassRow.written_eq (h.classes p hp).declared rfl rfl rfl
  refine ⟨s, ?_, ?_⟩
  · rw [hview.trans hadded, OrderedMap.ofList_toList, ← h.format, ← h.packages]
  · rw [OrderedMap.values, List.flatMap_map]
    exact hreads

/-- **A mapping is read as it was written.** -/
theorem ofTiny2_tiny2Text : ofTiny2 m.tiny2Text = .ok m := by
  obtain ⟨s, hs, hreads⟩ := h.exists_reads
  rw [tiny2Text, ofTiny2_of_reads h.two_le h.namespaces hreads, hs]

/-- The text shows its notation, unless the name of its file says something else. -/
theorem detect_tiny2Text {filename : Option Text}
    (hfilename : ∀ name ∈ filename, Format.ofSuffix? (Format.suffix name) = none) :
    Format.detect filename m.tiny2Text = .ok .tiny2 := by
  have hsuffix : Format.ofSuffix? ((filename.map Format.suffix).getD []) = none := by
    cases filename with
    | none => rfl
    | some name => exact hfilename name rfl
  obtain ⟨s, -, hreads⟩ := h.exists_reads
  rw [Format.detect, tiny2Text,
    contentLines_header (isRow_tiny2Header h.namespaces) hreads.unbroken]
  simp only [hsuffix]
  rfl

end IsPlain

end Mapping

end Renaming
