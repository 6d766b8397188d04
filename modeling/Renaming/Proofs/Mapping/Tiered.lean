import Renaming.Mapping.Load
import Renaming.Proofs.Mapping.Notation

/-!
# `Proofs/Mapping/Tiered` — the notations of many names

TSRG2 and both versions of Tiny hold one name for each symbol and namespace. They differ in what
stands between the columns, in where the descriptor stands, and in how a row shows what it is: by
its depth and the number of its columns, by a word, or by its depth and a letter. As long as no name
is missing, what is written in one of them can be written in the others, and

> the same classes make the same table in all three notations, whichever namespaces it is made for,
> and rows about parameters and variables change nothing (`ofFormat_tiered`).
-/

set_option autoImplicit false

namespace Renaming

namespace Mapping

/-! ## What is written -/

/-- A field or method with its names. The descriptor uses first names. -/
structure TieredMember where
  kind : MemberKind
  descriptor : Text
  first : Text
  others : List Text
deriving DecidableEq, Repr

structure TieredClass where
  first : Text
  others : List Text
  members : List TieredMember
deriving DecidableEq, Repr

def TieredMember.names (x : TieredMember) : List Text := x.first :: x.others

def TieredClass.names (c : TieredClass) : List Text := c.first :: c.others

def TieredMember.row (x : TieredMember) : MemberKind × MemberRow :=
  (x.kind, ⟨x.names.map some, some x.descriptor, none⟩)

def TieredClass.item (c : TieredClass) : Item :=
  .block ⟨c.first, c.names.map some, c.members.map TieredMember.row⟩

/-- There is a name in every tier, and a descriptor that tells what kind of member it is. -/
structure TieredMember.IsPlain (width : Nat) (x : TieredMember) : Prop where
  length : x.names.length = width
  names : ∀ w ∈ x.names, w.IsField
  descriptor : x.descriptor.IsField
  kind : Text.startsWith ['('] x.descriptor = decide (x.kind = .method)

/-- There is a name in every tier, and a row of the class is no comment. -/
structure TieredClass.IsPlain (width : Nat) (c : TieredClass) : Prop where
  length : c.names.length = width
  first : c.first.IsLead
  others : ∀ w ∈ c.others, w.IsField
  members : ∀ x ∈ c.members, x.IsPlain width

theorem TieredClass.IsPlain.names {width : Nat} {c : TieredClass} (hc : c.IsPlain width) :
    ∀ w ∈ c.names, w.IsField := List.forall_mem_cons.2 ⟨hc.first.isField, hc.others⟩

/-! ## How it is written -/

def tabRow (columns : List Text) : Text := Text.joinWith '\t' columns

def tsrg2Header (namespaces : List Text) : Text := wordRow ("tsrg2".toList :: namespaces)

def TieredMember.tsrg2Row (x : TieredMember) : Text :=
  '\t' :: wordRow (x.first :: x.descriptor :: x.others)

def TieredClass.tsrg2Lines (c : TieredClass) : List Text :=
  wordRow c.names :: c.members.map TieredMember.tsrg2Row

def tiny1Header (namespaces : List Text) : Text := tabRow ("v1".toList :: namespaces)

def tiny1Word : MemberKind → Text
  | .field => "FIELD".toList
  | .method => "METHOD".toList

def TieredMember.tiny1Row (owner : Text) (x : TieredMember) : Text :=
  tabRow (tiny1Word x.kind :: owner :: x.descriptor :: x.names)

def TieredClass.tiny1Lines (c : TieredClass) : List Text :=
  tabRow ("CLASS".toList :: c.names) :: c.members.map (TieredMember.tiny1Row c.first)

def tiny2Header (namespaces : List Text) : Text :=
  tabRow ("tiny".toList :: ['2'] :: ['0'] :: namespaces)

def tiny2Letter : MemberKind → Text
  | .field => ['f']
  | .method => ['m']

def TieredMember.tiny2Row (x : TieredMember) : Text :=
  '\t' :: tabRow (tiny2Letter x.kind :: x.descriptor :: x.names)

def TieredClass.tiny2Lines (c : TieredClass) : List Text :=
  tabRow (['c'] :: c.names) :: c.members.map TieredMember.tiny2Row

/-- A row of TSRG2 below a member. -/
def IsTsrg2Guest (line : Text) : Prop := line.Unbroken ∧ 2 ≤ tabDepth line

/-- A row of Tiny v2 below a member that is no comment of it. -/
def IsTiny2Guest (line : Text) : Prop :=
  line.Unbroken ∧ (2 < tabDepth line ∨
    tabDepth line = 2 ∧ (Tiny.columns (line.drop 2)).head? ≠ some ['c'])

/-! ## Rows of columns -/

/-- A column may hold anything but a tab or the end of a line. -/
def IsColumn (w : Text) : Prop := '\t' ∉ w ∧ w.Unbroken

instance (w : Text) : Decidable (IsColumn w) := inferInstanceAs (Decidable (_ ∧ _))

theorem isColumn_of_isField {ws : List Text} (hws : ∀ w ∈ ws, w.IsField) : ∀ w ∈ ws, IsColumn w :=
  fun w hw => ⟨(hws w hw).notMem (by rfl), (hws w hw).unbroken⟩

theorem isRow_tabRow {w : Text} {ws : List Text} (hw : w.IsLead) (hws : ∀ v ∈ ws, IsColumn v) :
    (tabRow (w :: ws)).IsRow := Text.isRow_joinWith hw (fun v hv => (hws v hv).2) (by rfl)

theorem columns_tabRow {w : Text} {ws : List Text} (hws : ∀ v ∈ w :: ws, IsColumn v) :
    Tiny.columns (tabRow (w :: ws)) = w :: ws :=
  Text.splitOn_joinWith_of_notMem (List.cons_ne_nil w ws) fun v hv => (hws v hv).1

theorem names_of_ne_nil {ws : List Text} (hws : ∀ w ∈ ws, w ≠ []) :
    Tiny.names false ws = ws.map some := by
  apply List.map_congr_left
  intro w hw
  cases w with
  | nil => exact absurd rfl (hws [] hw)
  | cons c r => rfl

theorem tabDepth_joinWith {w : Text} (hw : w.IsField) (c : Char) (ws : List Text) :
    tabDepth (Text.joinWith c (w :: ws)) = 0 := by
  obtain ⟨rest, hrest⟩ := Text.exists_joinWith_eq_append c w ws
  cases w with
  | nil => exact absurd rfl hw.1
  | cons d r =>
    have hd : d ≠ '\t' := by
      rintro rfl
      exact absurd (hw.2 '\t' List.mem_cons_self) (by decide)
    simp [hrest, tabDepth, hd]

theorem tabDepth_tab (line : Text) : tabDepth ('\t' :: line) = tabDepth line + 1 := by
  simp [tabDepth]

theorem isRow_tab_joinWith {w : Text} {ws : List Text} {c : Char} (hw : w.IsField)
    (hws : ∀ v ∈ ws, v.Unbroken) (hc : Text.isLineBoundary c = false) :
    Text.IsRow ('\t' :: Text.joinWith c (w :: ws)) := by
  have hindent : Text.Unbroken ['\t'] := by
    simp [Text.Unbroken]
    rfl
  exact Text.isRow_append_joinWith hindent hw hws hc (by simp)

/-! ## TSRG2 -/

section Tsrg2

variable {width : Nat} {c : TieredClass}

theorem tsrg2Step_class (s : Reading) (hc : c.IsPlain width) (n : Nat) :
    tsrg2Step width s (n, wordRow c.names) =
      .ok ⟨s.mapping.enter c.first (c.names.map some), some c.first⟩ := by
  have hdepth : tabDepth (wordRow c.names) = 0 := tabDepth_joinWith hc.first.isField ' ' c.others
  have hfields : Text.fields (wordRow c.names) = c.names := fields_wordRow hc.names
  have hdeclare := declare_eq_enter s.mapping hc.first.isField.1 (c.others.map some)
  simp only [tsrg2Step, hdepth, hfields, hc.length, if_pos]
  show (s.mapping.declare (some c.first :: c.others.map some) none >>= _) = _
  rw [hdeclare]
  rfl

theorem tsrg2_member (s : Reading) (hs : s.current = some c.first) {x : TieredMember}
    (hx : x.IsPlain width) :
    x.tsrg2Row.IsRow ∧ ∀ n, tsrg2Step width s (n, x.tsrg2Row) =
      .ok { s with mapping := s.mapping.addMember c.first x.row } := by
  obtain ⟨hfirst, hothers⟩ := List.forall_mem_cons.1 hx.names
  have hwords : ∀ w ∈ x.first :: x.descriptor :: x.others, w.IsField := by
    simpa [hfirst, hx.descriptor] using hothers
  have hdepth : tabDepth x.tsrg2Row = 1 := by
    rw [TieredMember.tsrg2Row, tabDepth_tab, wordRow, tabDepth_joinWith hfirst]
  have hblank : Text.isBlankText ['\t'] = true := by
    rfl
  have hfields : Text.fields x.tsrg2Row = x.first :: x.descriptor :: x.others :=
    (Text.fields_append_of_isBlankText hblank _).trans (fields_wordRow hwords)
  have hlength : (x.first :: x.descriptor :: x.others).length = width + 1 := by
    rw [← hx.length]
    rfl
  have hunbroken : ∀ w ∈ x.descriptor :: x.others, w.Unbroken :=
    fun w hw => (hwords w (List.mem_cons_of_mem _ hw)).unbroken
  refine ⟨isRow_tab_joinWith hfirst hunbroken (by rfl), fun n => ?_⟩
  have hkind := hx.kind
  -- with one column less the row would be that of a field without a descriptor
  simp only [tsrg2Step, hdepth, hs, hfields, hlength, if_neg (Nat.succ_ne_self width), if_pos]
  obtain ⟨kind, descriptor, first, others⟩ := x
  cases kind with
  | field => exact if_neg (by simp [hkind])
  | method => exact if_pos (by simp [hkind])

theorem tsrg2Step_guest {line : Text} (hline : IsTsrg2Guest line) (s : Reading) (n : Nat) :
    tsrg2Step width s (n, line) = .ok s := by
  obtain ⟨k, hk⟩ := Nat.exists_eq_add_of_le' hline.2
  simp [tsrg2Step, hk]

theorem enters_tsrg2 (hc : c.IsPlain width) :
    Enters (tsrg2Step width) Reading.mapping (fun _ => True) c.tsrg2Lines fun m =>
      c.item.into m := by
  apply enters_block (fun s => s.current = some c.first) (isRow_wordRow hc.first hc.others)
  · intro s _
    exact ⟨_, tsrg2Step_class s hc, rfl, rfl⟩
  · intro x hx s hs
    obtain ⟨hrow, hstep⟩ := tsrg2_member s hs (hc.members x hx)
    exact ⟨_, .row hrow hstep (.nil _), hs, rfl⟩
  · exact fun _ _ => trivial

end Tsrg2

/-! ## Tiny, version 1 -/

section Tiny1

variable {width : Nat} {c : TieredClass} (m : Mapping)

theorem tiny1Step_class (hc : c.IsPlain width) (n : Nat) :
    tiny1Step width m (n, tabRow ("CLASS".toList :: c.names)) =
      .ok (m.enter c.first (c.names.map some)) := by
  have hcolumns : Tiny.columns (tabRow ("CLASS".toList :: c.names)) = "CLASS".toList :: c.names :=
    columns_tabRow (List.forall_mem_cons.2 ⟨by decide, isColumn_of_isField hc.names⟩)
  have hdeclare := declare_eq_enter m hc.first.isField.1 (c.others.map some)
  simp only [tiny1Step, hcolumns, names_of_ne_nil fun w hw => (hc.names w hw).1, hc.length, if_pos]
  show (·.1) <$> m.declare (some c.first :: c.others.map some) none = _
  rw [hdeclare]
  rfl

theorem tiny1_member (hc : c.IsPlain width) {x : TieredMember} (hx : x.IsPlain width) :
    (x.tiny1Row c.first).IsRow ∧ ∀ n, tiny1Step width m (n, x.tiny1Row c.first) =
      .ok (m.addMember c.first x.row) := by
  have hcells : ∀ w ∈ c.first :: x.descriptor :: x.names, IsColumn w :=
    isColumn_of_isField (List.forall_mem_cons.2 ⟨hc.first.isField,
      List.forall_mem_cons.2 ⟨hx.descriptor, hx.names⟩⟩)
  have hword : (tiny1Word x.kind).IsLead ∧ tiny1Word x.kind ≠ "CLASS".toList := by
    cases x.kind <;> decide
  have hletters : IsColumn (tiny1Word x.kind) := by
    cases x.kind <;> decide
  have hcolumns : Tiny.columns (x.tiny1Row c.first) =
      tiny1Word x.kind :: c.first :: x.descriptor :: x.names :=
    columns_tabRow (List.forall_mem_cons.2 ⟨hletters, hcells⟩)
  refine ⟨isRow_tabRow hword.1 hcells, fun n => ?_⟩
  simp only [tiny1Step, hcolumns, if_neg hword.2, names_of_ne_nil fun w hw => (hx.names w hw).1,
    hx.length]
  rw [if_neg (not_not.2 rfl), TieredMember.row]
  cases x.kind <;> rfl

theorem enters_tiny1 (hc : c.IsPlain width) :
    Enters (tiny1Step width) id (fun _ => True) c.tiny1Lines fun m =>
      c.item.into m := by
  have hrow : (tabRow ("CLASS".toList :: c.names)).IsRow :=
    isRow_tabRow (by decide) (isColumn_of_isField hc.names)
  apply enters_block (fun _ => True) hrow
  · intro m _
    exact ⟨_, tiny1Step_class m hc, trivial, rfl⟩
  · intro x hx m _
    obtain ⟨hrow, hstep⟩ := tiny1_member m hc (hc.members x hx)
    exact ⟨_, .row hrow hstep (.nil _), trivial, rfl⟩
  · exact fun _ h => h

end Tiny1

/-! ## Tiny, version 2 -/

section Tiny2

variable {width : Nat} (s : Tiny2Reading)

/-- A column with a name in it. -/
def IsName (w : Text) : Prop := w ≠ [] ∧ IsColumn w

instance (w : Text) : Decidable (IsName w) := inferInstanceAs (Decidable (_ ∧ _))

theorem isName_of_isField {ws : List Text} (hws : ∀ w ∈ ws, w.IsField) : ∀ w ∈ ws, IsName w :=
  fun w hw => ⟨(hws w hw).1, isColumn_of_isField hws w hw⟩

theorem tiny2Step_class (hs : s.escaped = false) {first : Text} {others : List Text}
    (hnames : ∀ w ∈ first :: others, IsName w) (hlength : (first :: others).length = width)
    (n : Nat) :
    tiny2Step width s (n, tabRow (['c'] :: first :: others)) =
      .ok ⟨s.mapping.enter first ((first :: others).map some), false, some first, none⟩ := by
  have hcolumns : Tiny.columns (tabRow (['c'] :: first :: others)) = ['c'] :: first :: others :=
    columns_tabRow (List.forall_mem_cons.2 ⟨by decide, fun w hw => (hnames w hw).2⟩)
  have hdepth : tabDepth (tabRow (['c'] :: first :: others)) = 0 :=
    tabDepth_joinWith (by decide) '\t' _
  have hdeclare := declare_eq_enter s.mapping (hnames first List.mem_cons_self).1 (others.map some)
  simp only [tiny2Step, hdepth, tiny2Class, hcolumns, hs,
    names_of_ne_nil fun w hw => (hnames w hw).1, hlength, if_pos]
  show (s.mapping.declare (some first :: others.map some) none >>= _) = _
  rw [hdeclare]
  rfl

def tiny2MemberRow (kind : MemberKind) (descriptor : Text) (names : List Text) : Text :=
  '\t' :: tabRow (tiny2Letter kind :: descriptor :: names)

theorem tiny2_member (hs : s.escaped = false) {owner : Text} (hcurrent : s.current = some owner)
    (kind : MemberKind) {descriptor : Text} (hdescriptor : IsColumn descriptor) {names : List Text}
    (hnames : ∀ w ∈ names, IsName w) (hlength : names.length = width) :
    (tiny2MemberRow kind descriptor names).IsRow ∧
      ∀ n, tiny2Step width s (n, tiny2MemberRow kind descriptor names) =
        .ok { s with
          mapping := s.mapping.addMember owner (kind, ⟨names.map some, some descriptor, none⟩)
          member := some kind } := by
  have hletter : (tiny2Letter kind).IsField ∧ IsColumn (tiny2Letter kind) := by
    cases kind <;> decide
  have hcells : ∀ w ∈ descriptor :: names, IsColumn w :=
    List.forall_mem_cons.2 ⟨hdescriptor, fun w hw => (hnames w hw).2⟩
  have hdepth : tabDepth (tiny2MemberRow kind descriptor names) = 1 := by
    rw [tiny2MemberRow, tabDepth_tab, tabRow, tabDepth_joinWith hletter.1]
  have hcolumns : Tiny.columns ((tiny2MemberRow kind descriptor names).drop 1) =
      tiny2Letter kind :: descriptor :: names :=
    columns_tabRow (List.forall_mem_cons.2 ⟨hletter.2, hcells⟩)
  refine ⟨isRow_tab_joinWith hletter.1 (fun w hw => (hcells w hw).2) (by rfl), fun n => ?_⟩
  simp only [tiny2Step, hdepth, hcurrent, tiny2Member, hcolumns, hs]
  cases kind <;> simp [tiny2Letter, names_of_ne_nil fun w hw => (hnames w hw).1, hlength, addMember]

theorem tiny2Step_guest {line : Text} (hline : IsTiny2Guest line) (n : Nat) :
    tiny2Step width s (n, line) = .ok s := by
  obtain ⟨-, hdeep | ⟨hdepth, hcolumns⟩⟩ := hline
  · obtain ⟨k, hk⟩ := Nat.exists_eq_add_of_le' hdeep
    simp [tiny2Step, hk]
  · unfold tiny2Step
    dsimp only
    rw [hdepth]
    split
    · rename_i h
      cases h
    · rename_i h _
      cases h
    · rename_i h _
      cases h
    · split
      · rename_i hc
        rw [hc] at hcolumns
        exact absurd rfl hcolumns
      · rfl
    · rfl

theorem enters_tiny2 {c : TieredClass} (hc : c.IsPlain width) :
    Enters (tiny2Step width) Tiny2Reading.mapping (fun s => s.escaped = false) c.tiny2Lines
      fun m => c.item.into m := by
  have hrow : (tabRow (['c'] :: c.names)).IsRow :=
    isRow_tabRow (by decide) (isColumn_of_isField hc.names)
  apply enters_block (fun s => s.escaped = false ∧ s.current = some c.first) hrow
  · intro s hs
    exact ⟨_, tiny2Step_class s hs (isName_of_isField hc.names) hc.length, ⟨rfl, rfl⟩, rfl⟩
  · intro x hx s hs
    obtain ⟨hlength, hnames, hdescriptor, -⟩ := hc.members x hx
    obtain ⟨hrow, hstep⟩ := tiny2_member s hs.1 hs.2 x.kind
      ⟨hdescriptor.notMem (by rfl), hdescriptor.unbroken⟩ (isName_of_isField hnames) hlength
    exact ⟨_, .row hrow hstep (.nil _), hs, rfl⟩
  · exact fun _ h => h.1

theorem isColumn_tiny2Header {namespaces : List Text} (h : ∀ w ∈ namespaces, IsColumn w) :
    ∀ w : Text, w ∈ ['2'] :: ['0'] :: namespaces → IsColumn w :=
  List.forall_mem_cons.2 ⟨by decide, List.forall_mem_cons.2 ⟨by decide, h⟩⟩

theorem isRow_tiny2Header {namespaces : List Text} (h : ∀ w ∈ namespaces, IsColumn w) :
    (tiny2Header namespaces).IsRow := isRow_tabRow (by decide) (isColumn_tiny2Header h)

/-- A text of Tiny v2 is read as its rows are. -/
theorem ofTiny2_of_reads {namespaces : List Text} (hlength : 2 ≤ namespaces.length)
    (hnamespaces : ∀ w ∈ namespaces, IsColumn w) {rows : List Text} {s : Tiny2Reading}
    (hreads : Reads (tiny2Step namespaces.length)
      ⟨ofNamespaces .tiny2 namespaces, false, none, none⟩ rows s) :
    ofTiny2 (Text.ofLines (tiny2Header namespaces :: rows)) = .ok s.mapping := by
  have hcolumns : Tiny.columns (tiny2Header namespaces) =
      ['t', 'i', 'n', 'y'] :: ['2'] :: ['0'] :: namespaces :=
    columns_tabRow (List.forall_mem_cons.2 ⟨by decide, isColumn_tiny2Header hnamespaces⟩)
  rw [ofTiny2, contentLines_header (isRow_tiny2Header hnamespaces) hreads.unbroken]
  dsimp only
  rw [hcolumns]
  show (if 2 ≤ namespaces.length then _ else _) = _
  rw [if_pos hlength, hreads.readLines_eq]
  rfl

end Tiny2

/-! ## One table -/

section Table

variable {namespaces : List Text} {classes : List TieredClass} {rows : List Text}

theorem ofTsrg2_lines (hlength : 2 ≤ namespaces.length) (hfields : ∀ w ∈ namespaces, w.IsField)
    (hclasses : ∀ c ∈ classes, c.IsPlain namespaces.length)
    (hrows : Padded IsTsrg2Guest (classes.flatMap TieredClass.tsrg2Lines) rows) :
    ofTsrg2 (Text.ofLines (tsrg2Header namespaces :: rows)) =
      .ok (ofItems .tsrg2 namespaces (classes.map TieredClass.item)) := by
  have hheader : (tsrg2Header namespaces).IsRow := isRow_wordRow (by decide) hfields
  have hwords : Text.fields (tsrg2Header namespaces) = "tsrg2".toList :: namespaces :=
    fields_wordRow (List.forall_mem_cons.2 ⟨by decide, hfields⟩)
  obtain ⟨s, hreads, hs⟩ := exists_reads_of_enters
    (fun c hc => enters_tsrg2 (hclasses c hc)) trivial
    (rfl : (Reading.mk (ofNamespaces .tsrg2 namespaces) none).mapping = _)
  have hpadded := hreads.padded
    (fun line hline => ⟨hline.1, fun s n => tsrg2Step_guest hline s n⟩) hrows
  rw [ofTsrg2, contentLines_header hheader hpadded.unbroken]
  dsimp only
  rw [hwords]
  dsimp only
  rw [if_pos ⟨rfl, hlength⟩, hpadded.readLines_eq]
  exact congrArg Except.ok hs

theorem ofTiny1_lines (hlength : 2 ≤ namespaces.length) (hfields : ∀ w ∈ namespaces, w.IsField)
    (hclasses : ∀ c ∈ classes, c.IsPlain namespaces.length) :
    ofTiny1 (Text.ofLines (tiny1Header namespaces :: classes.flatMap TieredClass.tiny1Lines)) =
      .ok (ofItems .tiny1 namespaces (classes.map TieredClass.item)) := by
  have hheader : (tiny1Header namespaces).IsRow :=
    isRow_tabRow (by decide) (isColumn_of_isField hfields)
  have hcolumns : Tiny.columns (tiny1Header namespaces) = "v1".toList :: namespaces :=
    columns_tabRow (List.forall_mem_cons.2 ⟨by decide, isColumn_of_isField hfields⟩)
  obtain ⟨m, hreads, hm⟩ := exists_reads_of_enters
    (fun c hc => enters_tiny1 (hclasses c hc)) trivial
    (rfl : ofNamespaces .tiny1 namespaces = ofNamespaces .tiny1 namespaces)
  obtain rfl : m = _ := hm
  rw [ofTiny1, contentLines_header hheader hreads.unbroken]
  dsimp only
  rw [hcolumns]
  dsimp only
  rw [if_pos ⟨rfl, hlength⟩]
  exact hreads.readLines_eq 2

theorem ofTiny2_lines (hlength : 2 ≤ namespaces.length) (hfields : ∀ w ∈ namespaces, w.IsField)
    (hclasses : ∀ c ∈ classes, c.IsPlain namespaces.length)
    (hrows : Padded IsTiny2Guest (classes.flatMap TieredClass.tiny2Lines) rows) :
    ofTiny2 (Text.ofLines (tiny2Header namespaces :: rows)) =
      .ok (ofItems .tiny2 namespaces (classes.map TieredClass.item)) := by
  obtain ⟨s, hreads, hs⟩ := exists_reads_of_enters
    (fun c hc => enters_tiny2 (hclasses c hc)) rfl
    (rfl : (Tiny2Reading.mk (ofNamespaces .tiny2 namespaces) false none none).mapping = _)
  have hpadded := hreads.padded
    (fun line hline => ⟨hline.1, fun s n => tiny2Step_guest s hline n⟩) hrows
  rw [ofTiny2_of_reads hlength (isColumn_of_isField hfields) hpadded, hs]

theorem exists_tierIndex {m : Mapping} {requested : Option Text}
    (h : ∀ name ∈ requested, name ∈ m.namespaces) {default : Nat}
    (hdefault : default < m.namespaces.length) :
    ∃ i < m.namespaces.length, m.tierIndex requested default = .ok i := by
  cases requested with
  | none => exact ⟨default, hdefault, rfl⟩
  | some name =>
    obtain ⟨i, hlt, hi⟩ := exists_tier (h name rfl)
    exact ⟨i, hlt, by rw [tierIndex, hi]⟩

/-- Any two namespaces that are there can be chosen. -/
theorem exists_tiers {m : Mapping} (htiered : m.isTiered = true) (hne : m.namespaces ≠ [])
    {source target : Option Text} (hsource : ∀ name ∈ source, name ∈ m.namespaces)
    (htarget : ∀ name ∈ target, name ∈ m.namespaces) :
    ∃ i < m.namespaces.length, ∃ j < m.namespaces.length, m.tiers source target = .ok (i, j) := by
  have hpos := List.length_pos_of_ne_nil hne
  obtain ⟨i, hlt, hi⟩ := exists_tierIndex hsource hpos
  obtain ⟨j, hlt', hj⟩ := exists_tierIndex htarget (Nat.sub_one_lt_of_lt hpos)
  refine ⟨i, hlt, j, hlt', ?_⟩
  rw [tiers, htiered, if_pos rfl, hi, hj]
  rfl

/-- A table can be made for every two namespaces that are there. -/
theorem exists_table_ofItems {format : Format} (htiered : (ofNamespaces format []).isTiered = true)
    (hne : namespaces ≠ []) (items : List Item) {source target : Option Text}
    (hsource : ∀ name ∈ source, name ∈ namespaces) (htarget : ∀ name ∈ target, name ∈ namespaces) :
    ∃ r, (ofItems format namespaces items).table source target = .ok r := by
  have hnames := namespaces_ofItems format namespaces items
  obtain ⟨i, -, j, -, htiers⟩ := exists_tiers (m := ofItems format namespaces items)
    ((isTiered_ofItems format namespaces items).trans htiered) (by rw [hnames]; exact hne)
    (by rw [hnames]; exact hsource) (by rw [hnames]; exact htarget)
  refine ⟨(ofItems format namespaces items).tableBetween i j, ?_⟩
  rw [table_eq_of_namespaces (by rw [hnames]; exact fun _ => hne), htiers]
  rfl

/-- **What is written in TSRG2 or in either version of Tiny is one table** for every choice of
namespaces, and rows that no member comes from may stand anywhere. -/
theorem ofFormat_tiered (hlength : 2 ≤ namespaces.length) (hfields : ∀ w ∈ namespaces, w.IsField)
    (hclasses : ∀ c ∈ classes, c.IsPlain namespaces.length) :
    ∃ tables : Step → Except Fault Table,
      (∀ step, (∀ name ∈ step.source, name ∈ namespaces) →
        (∀ name ∈ step.target, name ∈ namespaces) → ∃ r, tables step = .ok r) ∧
      ∀ read step,
        (∀ rows, Padded IsTsrg2Guest (classes.flatMap TieredClass.tsrg2Lines) rows →
          Table.ofFormat read .tsrg2 step (Text.ofLines (tsrg2Header namespaces :: rows)) =
            tables step) ∧
        Table.ofFormat read .tiny1 step (Text.ofLines
          (tiny1Header namespaces :: classes.flatMap TieredClass.tiny1Lines)) = tables step ∧
        ∀ rows, Padded IsTiny2Guest (classes.flatMap TieredClass.tiny2Lines) rows →
          Table.ofFormat read .tiny2 step (Text.ofLines (tiny2Header namespaces :: rows)) =
            tables step := by
  have hne : namespaces ≠ [] := by
    rintro rfl
    simp at hlength
  have htsrg2 : ∀ source target,
      (ofItems .tsrg2 namespaces (classes.map TieredClass.item)).table source target =
        (ofItems .tiny1 namespaces (classes.map TieredClass.item)).table source target :=
    table_ofItems rfl hne rfl rfl
  have htiny2 : ∀ source target,
      (ofItems .tiny2 namespaces (classes.map TieredClass.item)).table source target =
        (ofItems .tiny1 namespaces (classes.map TieredClass.item)).table source target :=
    table_ofItems rfl hne rfl rfl
  refine ⟨fun step => (ofItems .tiny1 namespaces (classes.map TieredClass.item)).table
    step.source step.target, ?_, ?_⟩
  · intro step hsource htarget
    exact exists_table_ofItems rfl hne _ hsource htarget
  · intro read step
    refine ⟨?_, ?_, ?_⟩
    · intro rows hrows
      show (ofTsrg2 _ >>= fun m => m.table step.source step.target) = _
      rw [ofTsrg2_lines hlength hfields hclasses hrows]
      exact htsrg2 step.source step.target
    · show (ofTiny1 _ >>= fun m => m.table step.source step.target) = _
      rw [ofTiny1_lines hlength hfields hclasses]
      rfl
    · intro rows hrows
      show (ofTiny2 _ >>= fun m => m.table step.source step.target) = _
      rw [ofTiny2_lines hlength hfields hclasses hrows]
      exact htiny2 step.source step.target

/-- A class with two rows in three namespaces, and a parameter behind its field. -/
theorem ofFormat_tiered_repeated :
    let names (l : List String) : List Text := l.map String.toList
    let namespaces : List Text := names ["one", "two", "three"]
    let classes : List TieredClass :=
      [⟨"a".toList, names ["b", "x/A"],
        [⟨.field, "[La;".toList, "f".toList, names ["g", "h"]⟩,
          ⟨.method, "(La;I)V".toList, "m".toList, names ["n", "o"]⟩]⟩,
        ⟨"a".toList, names ["c", "x/A"], []⟩]
    let step : Step := ⟨some "two".toList, none, false⟩
    2 ≤ namespaces.length ∧ (∀ w ∈ namespaces, w.IsField) ∧
      (∀ c ∈ classes, c.IsPlain namespaces.length) ∧
      ∃ r, ∀ read,
        Table.ofFormat read .tsrg2 step (Text.ofLines (tsrg2Header namespaces ::
          (classes.flatMap TieredClass.tsrg2Lines).insertIdx 2 "\t\t0 p q".toList)) = .ok r ∧
        Table.ofFormat read .tiny1 step (Text.ofLines
          (tiny1Header namespaces :: classes.flatMap TieredClass.tiny1Lines)) = .ok r ∧
        Table.ofFormat read .tiny2 step (Text.ofLines (tiny2Header namespaces ::
          (classes.flatMap TieredClass.tiny2Lines).insertIdx 2 "\t\tp\t0\tq".toList)) = .ok r := by
  intro names namespaces classes step
  have hfields : ∀ w ∈ namespaces, w.IsField := by decide
  have hclasses : ∀ c ∈ classes, c.IsPlain namespaces.length := by
    simp only [classes, List.forall_mem_cons, List.not_mem_nil, false_implies, implies_true,
      and_true]
    refine ⟨⟨by decide, by decide, by decide, ?_⟩, ⟨by decide, by decide, by decide, by simp⟩⟩
    simp only [List.forall_mem_cons, List.not_mem_nil, false_implies, implies_true, and_true]
    exact ⟨⟨by decide, by decide, by decide, by decide⟩, ⟨by decide, by decide, by decide, by decide⟩⟩
  have htsrg2Guest : IsTsrg2Guest "\t\t0 p q".toList := ⟨by decide, by decide⟩
  have htiny2Guest : IsTiny2Guest "\t\tp\t0\tq".toList := ⟨by decide, .inr (by decide)⟩
  obtain ⟨tables, hok, hsame⟩ := ofFormat_tiered (by decide) hfields hclasses
  obtain ⟨r, hr⟩ := hok step (by decide) (by decide)
  refine ⟨by decide, hfields, hclasses, r, fun read => ?_⟩
  obtain ⟨htsrg2, htiny1, htiny2⟩ := hsame read step
  rw [← hr]
  exact ⟨htsrg2 _ (Padded.insertIdx htsrg2Guest _ 2), htiny1,
    htiny2 _ (Padded.insertIdx htiny2Guest _ 2)⟩

end Table

end Mapping

end Renaming
