import Renaming.Mapping.Load
import Renaming.Proofs.Mapping.Notation
import Renaming.Proofs.Symbol.Key
import Renaming.Proofs.Symbol.Package

/-!
# `Proofs/Mapping/Paired` — the notations of two names

SRG, CSRG and TSRG hold two names for each symbol and differ in how they spell a row: with a word in
front and every member with its owner on both sides, with the owner as a column of its own, or
without owner below its class (`srg`, `csrg`, `tsrg`). Whatever is written in one of them can be
written in the others, and

> the same packages and classes make the same table in all three notations (`ofFormat_paired`).

SRG is the one that has to be looked at twice. Each of its rows also mentions the owner on the
target side, but a class with a row of its own has a target name, so the rows of its members add
nothing.
-/

set_option autoImplicit false

namespace Renaming

/-! ## Packages with and without their slash -/

namespace Package

/-- The slash at the end of a package does not count, unless the package is the root and the slash
is one of its spellings. -/
theorem canonical_append_slash {name : Text} (hname : (name ++ ['/']).IsField)
    (hroot : name ∉ [[], ['/'], ['.', '/']]) : canonical (name ++ ['/']) = canonical name := by
  have hfield : name.IsField :=
    ⟨fun e => hroot (by simp [e]), fun c hc => hname.2 c (List.mem_append_left _ hc)⟩
  rw [canonical_eq, canonical_eq, hname.trim_eq, hfield.trim_eq]
  by_cases hdot : name = ['.']
  · rw [hdot]
    rfl
  have hspelling : name ∉ rootSpellings := by
    simp only [rootSpellings, List.mem_cons, List.not_mem_nil, or_false, not_or] at hroot ⊢
    exact ⟨hroot.1, hdot, hroot.2⟩
  have hspelling' : name ++ ['/'] ∉ rootSpellings := by
    simp only [rootSpellings, List.mem_cons, List.not_mem_nil, or_false, not_or]
    refine ⟨by simp, fun e => ?_, fun e => hfield.1 ?_, fun e => hdot ?_⟩
    · exact absurd (congrArg List.getLast? e) (by simp)
    · exact (List.append_left_inj ['/']).1 (e : name ++ ['/'] = [] ++ ['/'])
    · exact (List.append_left_inj ['/']).1 (e : name ++ ['/'] = ['.'] ++ ['/'])
  rw [if_neg hspelling, if_neg hspelling', stem_append_slash]

end Package

namespace Mapping

/-! ## What is written -/

/-- A field or method with its two names. The target side of a method has a descriptor, too, which
only SRG spells out. -/
inductive PairedMember where
  | field (source target : Text)
  | method (source descriptor target targetDescriptor : Text)
deriving DecidableEq, Repr

structure PairedClass where
  source : Text
  target : Text
  members : List PairedMember
deriving DecidableEq, Repr

/-- A package, or a class with its members. -/
inductive PairedItem where
  | package (source target : Text)
  | ofClass (c : PairedClass)
deriving DecidableEq, Repr

def PairedMember.row : PairedMember → MemberKind × MemberRow
  | field source target => (.field, ⟨twoNames source target, none, none⟩)
  | method source descriptor target _ => (.method, ⟨twoNames source target, some descriptor, none⟩)

def PairedClass.block (c : PairedClass) : Block :=
  ⟨c.source, twoNames c.source c.target, c.members.map PairedMember.row⟩

def PairedItem.item : PairedItem → Item
  | package source target => .package source target
  | ofClass c => .block c.block

/-- Names and descriptors are words, a name has no slash and the descriptor of a method starts with
a parenthesis. -/
def PairedMember.IsPlain : PairedMember → Prop
  | field source target => (source.IsField ∧ '/' ∉ source) ∧ target.IsField ∧ '/' ∉ target
  | method source descriptor target targetDescriptor =>
    (source.IsField ∧ '/' ∉ source) ∧ (descriptor.IsField ∧ Text.startsWith ['('] descriptor = true) ∧
      (target.IsField ∧ '/' ∉ target) ∧ targetDescriptor.IsField

/-- A row of the class is no comment, and the class is no package. -/
structure PairedClass.IsPlain (c : PairedClass) : Prop where
  source : c.source.IsLead
  target : c.target.IsField
  noPackage : Text.endsWith ['/'] c.source = false
  members : ∀ x ∈ c.members, x.IsPlain

/-- Packages have a slash at their end, and classes do not. -/
def PairedItem.IsPlain : PairedItem → Prop
  | package source target => source.IsLead ∧ Text.endsWith ['/'] source = true ∧ target.IsField
  | ofClass c => c.IsPlain

/-! ## How it is written -/

/-- How a notation spells the rows of a file. -/
structure RowSpelling where
  package (source target : Text) : Text
  ofClass (source target : Text) : Text
  member (c : PairedClass) (x : PairedMember) : Text

/-- The lines of packages and classes, each class with its members behind it. -/
def RowSpelling.lines (w : RowSpelling) : PairedItem → List Text
  | .package source target => [w.package source target]
  | .ofClass c => w.ofClass c.source c.target :: c.members.map (w.member c)

def srgRow (directive : Text) (words : List Text) : Text := wordRow ((directive ++ [':']) :: words)

/-- Packages may be spelled in a way of their own. -/
def srg (spell : Text → Text) : RowSpelling where
  package source target := srgRow ['P', 'K'] [spell source, spell target]
  ofClass source target := srgRow ['C', 'L'] [source, target]
  member
    | c, .field source target =>
      srgRow ['F', 'D'] [bareKey c.source source, bareKey c.target target]
    | c, .method source descriptor target targetDescriptor =>
      srgRow ['M', 'D']
        [bareKey c.source source, descriptor, bareKey c.target target, targetDescriptor]

def csrg : RowSpelling where
  package source target := wordRow [source, target]
  ofClass source target := wordRow [source, target]
  member
    | c, .field source target => wordRow [c.source, source, target]
    | c, .method source descriptor target _ => wordRow [c.source, source, descriptor, target]

/-- Members are indented. -/
def tsrg (indent : Text) : RowSpelling where
  package source target := wordRow [source, target]
  ofClass source target := wordRow [source, target]
  member
    | _, .field source target => indent ++ wordRow [source, target]
    | _, .method source descriptor target _ => indent ++ wordRow [source, descriptor, target]

/-- A package may be spelled as it is or without the slash at its end. Only the spellings of the
root are no longer spellings of the root with one more slash. -/
def Spells (spelling package : Text) : Prop :=
  spelling = package ∨ spelling ++ ['/'] = package ∧ spelling ∉ [[], ['/'], ['.', '/']]

theorem isField_bareKey {owner name : Text} (howner : owner.IsField) (hname : name.IsField) :
    (bareKey owner name).IsField := by
  constructor
  · simp [bareKey]
  · intro c hc
    rcases List.mem_append.1 hc with hc | hc
    · exact howner.2 c hc
    · rcases List.mem_cons.1 hc with rfl | hc
      · rfl
      · exact hname.2 c hc

/-! ## CSRG -/

section Csrg

variable (m : Mapping) {source target : Text}

theorem csrgStep_package (hsource : source.IsField) (hslash : Text.endsWith ['/'] source = true)
    (htarget : target.IsField) (n : Nat) :
    csrgStep m (n, csrg.package source target) = .ok (m.addPackage source target) := by
  have hfields : Text.fields (csrg.package source target) = [source, target] :=
    fields_wordRow (by simp [hsource, htarget])
  simp [csrgStep, hfields, hslash]

theorem csrgStep_class (hsource : source.IsField) (hslash : Text.endsWith ['/'] source = false)
    (htarget : target.IsField) (n : Nat) :
    csrgStep m (n, csrg.ofClass source target) = .ok (m.enter source (twoNames source target)) := by
  have hfields : Text.fields (csrg.ofClass source target) = [source, target] :=
    fields_wordRow (by simp [hsource, htarget])
  simp only [csrgStep, hfields, hslash, twoNames, declare_eq_enter m hsource.1]
  rfl

theorem isRow_csrg_member {c : PairedClass} (hc : c.source.IsLead) {x : PairedMember}
    (hx : x.IsPlain) : (csrg.member c x).IsRow := by
  cases x with
  | field source target =>
    obtain ⟨hsource, htarget⟩ := hx
    exact isRow_wordRow hc (by simp [hsource.1, htarget.1])
  | method source descriptor target targetDescriptor =>
    obtain ⟨hsource, hdescriptor, htarget, -⟩ := hx
    exact isRow_wordRow hc (by simp [hsource.1, hdescriptor.1, htarget.1])

theorem csrgStep_member {c : PairedClass} (hc : c.source.IsField) {x : PairedMember}
    (hx : x.IsPlain) (n : Nat) :
    csrgStep m (n, csrg.member c x) = .ok (m.addMember c.source x.row) := by
  cases x with
  | field source target =>
    obtain ⟨hsource, htarget⟩ := hx
    have hfields : Text.fields (csrg.member c (.field source target)) = [c.source, source, target] :=
      fields_wordRow (by simp [hc, hsource.1, htarget.1])
    simp only [csrgStep, hfields]
    rfl
  | method source descriptor target targetDescriptor =>
    obtain ⟨hsource, hdescriptor, htarget, -⟩ := hx
    have hfields : Text.fields (csrg.member c (.method source descriptor target targetDescriptor)) =
        [c.source, source, descriptor, target] :=
      fields_wordRow (by simp [hc, hsource.1, hdescriptor.1, htarget.1])
    simp only [csrgStep, hfields, hdescriptor.2, if_pos]
    rfl

theorem enters_csrg {x : PairedItem} (hx : x.IsPlain) :
    Enters csrgStep id (fun _ => True) (csrg.lines x) fun m => x.item.into m := by
  cases x with
  | package source target =>
    obtain ⟨hsource, hslash, htarget⟩ := hx
    apply Enters.row (isRow_wordRow hsource (by simp [htarget]))
    intro m _
    exact ⟨_, csrgStep_package m hsource.isField hslash htarget, trivial, rfl⟩
  | ofClass c =>
    apply enters_block (fun _ => True) (isRow_wordRow hx.source (by simp [hx.target]))
    · intro m _
      exact ⟨_, csrgStep_class m hx.source.isField hx.noPackage hx.target, trivial, rfl⟩
    · intro member hmember
      have hplain := hx.members member hmember
      apply Enters.row (isRow_csrg_member hx.source hplain)
      intro m _
      exact ⟨_, csrgStep_member m hx.source.isField hplain, trivial, rfl⟩
    · exact fun _ h => h

theorem ofCsrg_lines {items : List PairedItem} (hitems : ∀ x ∈ items, x.IsPlain) :
    ofCsrg (Text.ofLines (items.flatMap csrg.lines)) =
      .ok (ofItems .csrg twoTiers (items.map PairedItem.item)) := by
  have henters : ∀ x ∈ items, Enters csrgStep id (fun _ => True) (csrg.lines x) fun m =>
      x.item.into m := fun x hx => enters_csrg (hitems x hx)
  obtain ⟨m, hreads, hm⟩ := exists_reads_of_enters henters trivial
    (rfl : ofNamespaces .csrg twoTiers = ofNamespaces .csrg twoTiers)
  obtain rfl : m = _ := hm
  exact hreads.readLines_ofLines

end Csrg

/-! ## TSRG -/

/-- Blanks and tabs, at least one. -/
def IsIndent (indent : Text) : Prop := indent ≠ [] ∧ ∀ c ∈ indent, c = ' ' ∨ c = '\t'

section Tsrg

variable {indent : Text}

theorem isIndented_append (hindent : IsIndent indent) (t : Text) :
    isIndented (indent ++ t) = true := by
  obtain ⟨hne, hall⟩ := hindent
  cases indent with
  | nil => exact absurd rfl hne
  | cons c r =>
    rcases hall c List.mem_cons_self with rfl | rfl <;> rfl

theorem isIndented_wordRow {w : Text} (hw : w.IsField) (ws : List Text) :
    isIndented (wordRow (w :: ws)) = false := by
  obtain ⟨rest, hrest⟩ := Text.exists_joinWith_eq_append ' ' w ws
  rw [wordRow, hrest]
  cases w with
  | nil => exact absurd rfl hw.1
  | cons c r =>
    have hc : Text.isBlank c = false := hw.2 c List.mem_cons_self
    unfold isIndented
    split
    · rename_i h
      cases h
      cases hc
    · rename_i h
      cases h
      cases hc
    · rfl

theorem isRow_indented (hindent : IsIndent indent) {w : Text} {ws : List Text}
    (hws : ∀ v ∈ w :: ws, v.IsField) : (indent ++ wordRow (w :: ws)).IsRow := by
  obtain ⟨hne, hall⟩ := hindent
  obtain ⟨hw, hws⟩ := List.forall_mem_cons.1 hws
  apply Text.isRow_append_joinWith _ hw (fun v hv => (hws v hv).unbroken) (by rfl)
  · cases indent with
    | nil => exact absurd rfl hne
    | cons c r => rcases hall c List.mem_cons_self with rfl | rfl <;> simp
  · intro c hc
    rcases hall c hc with rfl | rfl <;> rfl

theorem fields_indented (hindent : IsIndent indent) {ws : List Text} (hws : ∀ v ∈ ws, v.IsField) :
    Text.fields (indent ++ wordRow ws) = ws := by
  have hblank : Text.isBlankText indent = true := by
    rw [Text.isBlankText, List.all_eq_true]
    intro c hc
    rcases hindent.2 c hc with rfl | rfl <;> rfl
  rw [Text.fields_append_of_isBlankText hblank, fields_wordRow hws]

variable (s : Reading) {source target : Text}

theorem tsrgStep_package (hsource : source.IsField) (hslash : Text.endsWith ['/'] source = true)
    (htarget : target.IsField) (n : Nat) :
    tsrgStep s (n, (tsrg indent).package source target) =
      .ok ⟨s.mapping.addPackage source target, none⟩ := by
  have hfields : Text.fields ((tsrg indent).package source target) = [source, target] :=
    fields_wordRow (by simp [hsource, htarget])
  have hindented : isIndented ((tsrg indent).package source target) = false :=
    isIndented_wordRow hsource [target]
  simp [tsrgStep, hfields, hindented, hslash]

theorem tsrgStep_class (hsource : source.IsField) (hslash : Text.endsWith ['/'] source = false)
    (htarget : target.IsField) (n : Nat) :
    tsrgStep s (n, (tsrg indent).ofClass source target) =
      .ok ⟨s.mapping.enter source (twoNames source target), some source⟩ := by
  have hfields : Text.fields ((tsrg indent).ofClass source target) = [source, target] :=
    fields_wordRow (by simp [hsource, htarget])
  have hindented : isIndented ((tsrg indent).ofClass source target) = false :=
    isIndented_wordRow hsource [target]
  simp only [tsrgStep, hfields, hindented, hslash, twoNames, declare_eq_enter s.mapping hsource.1]
  rfl

/-- A member row belongs to the class above it. -/
theorem tsrg_member (hindent : IsIndent indent) {c : PairedClass} (hs : s.current = some c.source)
    {x : PairedMember} (hx : x.IsPlain) :
    ((tsrg indent).member c x).IsRow ∧ ∀ n, tsrgStep s (n, (tsrg indent).member c x) =
      .ok { s with mapping := s.mapping.addMember c.source x.row } := by
  have hindented : isIndented ((tsrg indent).member c x) = true := by
    cases x <;> exact isIndented_append hindent _
  cases x with
  | field source target =>
    obtain ⟨hsource, htarget⟩ := hx
    have hwords : ∀ w ∈ [source, target], w.IsField := by simp [hsource.1, htarget.1]
    have hfields : Text.fields ((tsrg indent).member c (.field source target)) = [source, target] :=
      fields_indented hindent hwords
    refine ⟨isRow_indented hindent hwords, fun n => ?_⟩
    simp only [tsrgStep, hfields, hindented, hs]
    rfl
  | method source descriptor target targetDescriptor =>
    obtain ⟨hsource, hdescriptor, htarget, -⟩ := hx
    have hwords : ∀ w ∈ [source, descriptor, target], w.IsField := by
      simp [hsource.1, hdescriptor.1, htarget.1]
    have hfields : Text.fields
        ((tsrg indent).member c (.method source descriptor target targetDescriptor)) =
        [source, descriptor, target] := fields_indented hindent hwords
    refine ⟨isRow_indented hindent hwords, fun n => ?_⟩
    simp only [tsrgStep, hfields, hindented, hs]
    rfl

theorem enters_tsrg (hindent : IsIndent indent) {x : PairedItem} (hx : x.IsPlain) :
    Enters tsrgStep Reading.mapping (fun _ => True) ((tsrg indent).lines x) fun m =>
      x.item.into m := by
  cases x with
  | package source target =>
    obtain ⟨hsource, hslash, htarget⟩ := hx
    have hrow : ((tsrg indent).package source target).IsRow :=
      isRow_wordRow hsource (by simp [htarget])
    apply Enters.row hrow
    intro s _
    exact ⟨_, tsrgStep_package s hsource.isField hslash htarget, trivial, rfl⟩
  | ofClass c =>
    have hrow : ((tsrg indent).ofClass c.source c.target).IsRow :=
      isRow_wordRow hx.source (by simp [hx.target])
    apply enters_block (fun s => s.current = some c.source) hrow
    · intro s _
      exact ⟨_, tsrgStep_class s hx.source.isField hx.noPackage hx.target, rfl, rfl⟩
    · intro member hmember s hs
      obtain ⟨hrow, hstep⟩ := tsrg_member s hindent hs (hx.members member hmember)
      exact ⟨_, .row hrow hstep (.nil _), hs, rfl⟩
    · exact fun _ _ => trivial

theorem ofTsrg_lines (hindent : IsIndent indent) {items : List PairedItem}
    (hitems : ∀ x ∈ items, x.IsPlain) :
    ofTsrg (Text.ofLines (items.flatMap (tsrg indent).lines)) =
      .ok (ofItems .tsrg twoTiers (items.map PairedItem.item)) := by
  have henters : ∀ x ∈ items, Enters tsrgStep Reading.mapping (fun _ => True)
      ((tsrg indent).lines x) fun m => x.item.into m :=
    fun x hx => enters_tsrg hindent (hitems x hx)
  obtain ⟨s, hreads, hs⟩ := exists_reads_of_enters henters trivial
    (rfl : (Reading.mk (ofNamespaces .tsrg twoTiers) none).mapping = ofNamespaces .tsrg twoTiers)
  rw [ofTsrg, hreads.readLines_ofLines, ← hs]
  rfl

end Tsrg

/-! ## SRG -/

section Owner

variable {m : Mapping} {first : Text} {c : ClassRow}

theorem onOwner_of_get? (h : m.classes.get? first = some c) (f : ClassRow → ClassRow) :
    m.onOwner first f = { m with classes := m.classes.insert first (f c) } := by
  have howner : m.withOwner first = m := by simp [withOwner, OrderedMap.contains, h]
  simp [onOwner, howner, OrderedMap.modify, h]

theorem exists_get?_onOwner (m : Mapping) (first : Text) (f : ClassRow → ClassRow) :
    ∃ c, (m.onOwner first f).classes.get? first = some (f c) := by
  have howner : ∃ c, (m.withOwner first).classes.get? first = some c := by
    cases h : m.classes.get? first with
    | some c => exact ⟨c, by simp [withOwner, OrderedMap.contains, h]⟩
    | none => exact ⟨m.mentioned first, by simp [withOwner, OrderedMap.contains, h]⟩
  obtain ⟨c, hc⟩ := howner
  exact ⟨c, by simp [onOwner, OrderedMap.modify, hc]⟩

/-- The class of this first name has a target name. -/
def HasTarget (m : Mapping) (first : Text) : Prop :=
  ∃ c, m.classes.get? first = some c ∧ nameAt c.names 1 ≠ none

theorem hasTarget_enter (m : Mapping) (source : Text) {target : Text} (htarget : target ≠ []) :
    (m.enter source (twoNames source target)).HasTarget source := by
  obtain ⟨c, hc⟩ := exists_get?_onOwner m source fun c =>
    { c with names := twoNames source target, declared := true, comment := c.comment }
  refine ⟨_, hc, ?_⟩
  cases target with
  | nil => exact absurd rfl htarget
  | cons d r => simp [twoNames, nameAt, Text.nonempty?]

theorem HasTarget.addMember (h : m.HasTarget first) (p : MemberKind × MemberRow) :
    (m.addMember first p).HasTarget first := by
  obtain ⟨c, hc, hname⟩ := h
  obtain ⟨kind, row⟩ := p
  cases kind with
  | field =>
    refine ⟨{ c with fields := c.fields ++ [row] }, ?_, hname⟩
    simp [Mapping.addMember, addField, onOwner_of_get? hc]
  | method =>
    refine ⟨{ c with methods := c.methods ++ [row] }, ?_, hname⟩
    simp [Mapping.addMember, addMethod, onOwner_of_get? hc]

/-- A class that has a target name is mentioned in vain. -/
theorem HasTarget.mentionOwners (h : m.HasTarget first) (target : Text) :
    m.mentionOwners first target = m := by
  obtain ⟨c, hc, hname⟩ := h
  obtain ⟨name, hname⟩ := Option.ne_none_iff_exists'.1 hname
  have hsame : nameIfMissing c.names 1 target = c.names := by simp [nameIfMissing, hname]
  rw [Mapping.mentionOwners, onOwner_of_get? hc, hsame, OrderedMap.insert_of_get? hc]

end Owner

section Srg

theorem srgColumns_srgRow {directive : Text} (hdirective : ':' ∉ directive) {w : Text}
    {ws : List Text} (hws : ∀ v ∈ w :: ws, v.IsField) :
    srgColumns (srgRow directive (w :: ws)) = (directive, w :: ws) := by
  have hcut : Text.cut ':' (srgRow directive (w :: ws)) =
      some (directive, [' '] ++ wordRow (w :: ws)) := by
    rw [Text.cut_eq_some_iff]
    exact ⟨by simp [srgRow, wordRow, Text.joinWith], hdirective⟩
  rw [srgColumns, hcut]
  dsimp only
  rw [Text.fields_append_of_isBlankText (by rfl), fields_wordRow hws]

theorem srgMember_bareKey {owner name : Text} (howner : owner.IsField)
    (hname : name.IsField ∧ '/' ∉ name) (n : Nat) :
    srgMember n (bareKey owner name) = .ok ⟨owner, name, none⟩ := by
  have hread : MemberKey.IsReadable ⟨owner, name, none⟩ :=
    ⟨howner.1, howner.notMem (by rfl), hname.1.1, hname.1.notMem (by rfl), hname.2⟩
  have hparse : MemberKey.parse (bareKey owner name) = .ok ⟨owner, name, none⟩ :=
    MemberKey.parse_format hread
  rw [srgMember, hparse]

variable (m : Mapping) {spell : Text → Text} {source target : Text}

theorem srgStep_package (hsource : (spell source).IsField) (htarget : (spell target).IsField)
    (n : Nat) :
    srgStep m (n, (srg spell).package source target) =
      .ok (m.addPackage (spell source) (spell target)) := by
  have hcolumns : srgColumns ((srg spell).package source target) =
      (['P', 'K'], [spell source, spell target]) :=
    srgColumns_srgRow (by decide) (by simp [hsource, htarget])
  simp [srgStep, hcolumns]

theorem srgStep_class (hsource : source.IsField) (htarget : target.IsField) (n : Nat) :
    srgStep m (n, (srg spell).ofClass source target) =
      .ok (m.enter source (twoNames source target)) := by
  have hcolumns : srgColumns ((srg spell).ofClass source target) =
      (['C', 'L'], [source, target]) :=
    srgColumns_srgRow (by decide) (by simp [hsource, htarget])
  simp only [srgStep, hcolumns, twoNames, declare_eq_enter m hsource.1]
  rfl

/-- The row of a member adds it and nothing else. -/
theorem srg_member {c : PairedClass} (hc : c.IsPlain) (hm : m.HasTarget c.source)
    {x : PairedMember} (hx : x.IsPlain) :
    ((srg spell).member c x).IsRow ∧ ∀ n, srgStep m (n, (srg spell).member c x) =
      .ok (m.addMember c.source x.row) := by
  have howner := hc.source.isField
  cases x with
  | field source target =>
    obtain ⟨hsource, htarget⟩ := hx
    have hwords : ∀ w ∈ [bareKey c.source source, bareKey c.target target], w.IsField := by
      simp [isField_bareKey howner hsource.1, isField_bareKey hc.target htarget.1]
    have hcolumns : srgColumns ((srg spell).member c (.field source target)) =
        (['F', 'D'], [bareKey c.source source, bareKey c.target target]) :=
      srgColumns_srgRow (by decide) hwords
    refine ⟨isRow_wordRow (by decide) hwords, fun n => ?_⟩
    simp only [srgStep, hcolumns, srgMember_bareKey howner hsource,
      srgMember_bareKey hc.target htarget, bind, Except.bind, hm.mentionOwners]
    rfl
  | method source descriptor target targetDescriptor =>
    obtain ⟨hsource, hdescriptor, htarget, htargetDescriptor⟩ := hx
    have hwords : ∀ w ∈ [bareKey c.source source, descriptor, bareKey c.target target,
        targetDescriptor], w.IsField := by
      simp [isField_bareKey howner hsource.1, isField_bareKey hc.target htarget.1, hdescriptor.1,
        htargetDescriptor]
    have hcolumns : srgColumns
        ((srg spell).member c (.method source descriptor target targetDescriptor)) =
        (['M', 'D'], [bareKey c.source source, descriptor, bareKey c.target target,
          targetDescriptor]) := srgColumns_srgRow (by decide) hwords
    refine ⟨isRow_wordRow (by decide) hwords, fun n => ?_⟩
    simp only [srgStep, hcolumns, srgMember_bareKey howner hsource,
      srgMember_bareKey hc.target htarget, bind, Except.bind, hm.mentionOwners]
    rfl

/-- The item as SRG spells it. -/
def PairedItem.respelled (spell : Text → Text) : PairedItem → Item
  | package source target => .package (spell source) (spell target)
  | ofClass c => .block c.block

/-- The packages among the items are spelled in one of the two ways. -/
def SpellsPackages (spell : Text → Text) (items : List PairedItem) : Prop :=
  ∀ source target, .package source target ∈ items →
    Spells (spell source) source ∧ Spells (spell target) target

theorem Spells.isField {spelling package : Text} (h : Spells spelling package)
    (hpackage : package.IsField) : spelling.IsField := by
  rcases h with rfl | ⟨rfl, hroot⟩
  · exact hpackage
  · constructor
    · rintro rfl
      simp at hroot
    · intro c hc
      exact hpackage.2 c (List.mem_append_left _ hc)

theorem Spells.canonical_eq {spelling package : Text} (h : Spells spelling package)
    (hpackage : package.IsField) : Package.canonical spelling = Package.canonical package := by
  rcases h with rfl | ⟨rfl, hroot⟩
  · rfl
  · exact (Package.canonical_append_slash hpackage hroot).symm

theorem enters_srg {items : List PairedItem} (hspell : SpellsPackages spell items)
    {x : PairedItem} (hmem : x ∈ items) (hx : x.IsPlain) :
    Enters srgStep id (fun _ => True) ((srg spell).lines x) fun m =>
      (x.respelled spell).into m := by
  cases x with
  | package source target =>
    obtain ⟨hsource, -, htarget⟩ := hx
    obtain ⟨hspellSource, hspellTarget⟩ := hspell source target hmem
    have hs := hspellSource.isField hsource.isField
    have ht := hspellTarget.isField htarget
    have hrow : ((srg spell).package source target).IsRow :=
      isRow_wordRow (by decide) (by simp [hs, ht])
    apply Enters.row hrow
    intro m _
    exact ⟨_, srgStep_package m hs ht, trivial, rfl⟩
  | ofClass c =>
    have hc : c.IsPlain := hx
    have hrow : ((srg spell).ofClass c.source c.target).IsRow :=
      isRow_wordRow (by decide) (by simp [hc.source.isField, hc.target])
    apply enters_block (fun m => m.HasTarget c.source) hrow
    · intro m _
      exact ⟨_, srgStep_class m hc.source.isField hc.target,
        hasTarget_enter m c.source hc.target.1, rfl⟩
    · intro member hmember m hm
      obtain ⟨hrow, hstep⟩ := srg_member m hc hm (hc.members member hmember)
      exact ⟨_, .row hrow hstep (.nil _), hm.addMember member.row, rfl⟩
    · exact fun _ _ => trivial

theorem ofSrg_lines {items : List PairedItem} (hspell : SpellsPackages spell items)
    (hitems : ∀ x ∈ items, x.IsPlain) :
    ofSrg (Text.ofLines (items.flatMap (srg spell).lines)) =
      .ok (ofItems .srg twoTiers (items.map (PairedItem.respelled spell))) := by
  have henters : ∀ x ∈ items, Enters srgStep id (fun _ => True) ((srg spell).lines x) fun m =>
      (x.respelled spell).into m := fun x hx => enters_srg hspell hx (hitems x hx)
  obtain ⟨m, hreads, hm⟩ := exists_reads_of_enters henters trivial
    (rfl : ofNamespaces .srg twoTiers = ofNamespaces .srg twoTiers)
  obtain rfl : m = _ := hm
  exact hreads.readLines_ofLines

end Srg

/-! ## One table -/

section Table

variable {spell : Text → Text} {items : List PairedItem}

theorem filterMap_block?_respelled (spell : Text → Text) (items : List PairedItem) :
    (items.map (PairedItem.respelled spell)).filterMap Item.block? =
      (items.map PairedItem.item).filterMap Item.block? := by
  rw [List.filterMap_map, List.filterMap_map]
  congr 1
  funext x
  cases x <;> rfl

theorem canonical_respelled (hspell : SpellsPackages spell items)
    (hitems : ∀ x ∈ items, x.IsPlain) :
    ((items.map (PairedItem.respelled spell)).filterMap Item.package?).map
        (fun p => (Package.canonical p.1, Package.canonical p.2)) =
      ((items.map PairedItem.item).filterMap Item.package?).map
        fun p => (Package.canonical p.1, Package.canonical p.2) := by
  rw [List.map_filterMap, List.map_filterMap, List.filterMap_map, List.filterMap_map]
  apply List.filterMap_congr
  intro x hx
  cases x with
  | package source target =>
    obtain ⟨hsource, -, htarget⟩ := hitems _ hx
    obtain ⟨hspellSource, hspellTarget⟩ := hspell source target hx
    simp [PairedItem.respelled, PairedItem.item, Item.package?,
      hspellSource.canonical_eq hsource.isField, hspellTarget.canonical_eq htarget]
  | ofClass c => rfl

/-- **What is written in SRG, CSRG or TSRG is one table.** Classes and members may come more than
once, and packages anywhere between them. -/
theorem ofFormat_paired (hitems : ∀ x ∈ items, x.IsPlain) (hspell : SpellsPackages spell items)
    {indent : Text} (hindent : IsIndent indent) :
    ∃ r, ∀ read step,
      Table.ofFormat read .srg step (Text.ofLines (items.flatMap (srg spell).lines)) = .ok r ∧
      Table.ofFormat read .csrg step (Text.ofLines (items.flatMap csrg.lines)) = .ok r ∧
      Table.ofFormat read .tsrg step (Text.ofLines (items.flatMap (tsrg indent).lines)) =
        .ok r := by
  have hne : twoTiers ≠ [] := List.cons_ne_nil _ _
  have hcsrg : ∀ source target, (ofItems .csrg twoTiers (items.map PairedItem.item)).table
      source target = .ok ((ofItems .csrg twoTiers (items.map PairedItem.item)).tableBetween 0 1) := by
    intro source target
    have htiered : (ofItems .csrg twoTiers (items.map PairedItem.item)).isTiered = false :=
      isTiered_ofItems .csrg twoTiers _
    rw [table_eq_of_namespaces (by simp [htiered]), tiers, htiered]
    rfl
  have hsrg : ∀ source target, (ofItems .srg twoTiers (items.map (PairedItem.respelled spell))).table
      source target = (ofItems .csrg twoTiers (items.map PairedItem.item)).table source target :=
    table_ofItems rfl hne (filterMap_block?_respelled spell items)
      (canonical_respelled hspell hitems)
  have htsrg : ∀ source target, (ofItems .tsrg twoTiers (items.map PairedItem.item)).table
      source target = (ofItems .csrg twoTiers (items.map PairedItem.item)).table source target :=
    table_ofItems rfl hne rfl rfl
  refine ⟨(ofItems .csrg twoTiers (items.map PairedItem.item)).tableBetween 0 1, ?_⟩
  intro read step
  refine ⟨?_, ?_, ?_⟩
  · show (ofSrg _ >>= fun m => m.table step.source step.target) = _
    rw [ofSrg_lines hspell hitems]
    exact (hsrg step.source step.target).trans (hcsrg step.source step.target)
  · show (ofCsrg _ >>= fun m => m.table step.source step.target) = _
    rw [ofCsrg_lines hitems]
    exact hcsrg step.source step.target
  · show (ofTsrg _ >>= fun m => m.table step.source step.target) = _
    rw [ofTsrg_lines hindent hitems]
    exact (htsrg step.source step.target).trans (hcsrg step.source step.target)

/-- A class with two rows, and a package without its slash. -/
theorem ofFormat_paired_repeated :
    let spell (t : Text) : Text := if t = "com/".toList then "com".toList else t
    let items : List PairedItem :=
      [.ofClass ⟨"a".toList, "x/A".toList, [.field "f".toList "g".toList,
          .method "m".toList "(La;)V".toList "n".toList "(Lx/A;)V".toList]⟩,
        .package "com/".toList "net/".toList,
        .ofClass ⟨"a".toList, "x/B".toList, [.field "f".toList "h".toList]⟩]
    (∀ x ∈ items, x.IsPlain) ∧ SpellsPackages spell items ∧ IsIndent ['\t'] ∧
      ∃ r, ∀ read step,
        Table.ofFormat read .srg step (Text.ofLines (items.flatMap (srg spell).lines)) = .ok r ∧
        Table.ofFormat read .csrg step (Text.ofLines (items.flatMap csrg.lines)) = .ok r ∧
        Table.ofFormat read .tsrg step (Text.ofLines (items.flatMap (tsrg ['\t']).lines)) =
          .ok r := by
  intro spell items
  have hitems : ∀ x ∈ items, x.IsPlain := by
    simp only [items, List.forall_mem_cons, List.not_mem_nil, false_implies, implies_true, and_true]
    refine ⟨⟨by decide, by decide, by decide, ?_⟩, ⟨by decide, by decide, by decide⟩,
      ⟨by decide, by decide, by decide, ?_⟩⟩
    · simp only [List.forall_mem_cons, List.not_mem_nil, false_implies, implies_true, and_true,
        PairedMember.IsPlain]
      decide
    · simp only [List.forall_mem_cons, List.not_mem_nil, false_implies, implies_true, and_true,
        PairedMember.IsPlain]
      decide
  have hspell : SpellsPackages spell items := by
    intro source target hx
    simp only [items, List.mem_cons, reduceCtorEq, PairedItem.package.injEq, List.not_mem_nil,
      false_or, or_false] at hx
    obtain ⟨rfl, rfl⟩ := hx
    exact ⟨.inr (by decide), .inl (by decide)⟩
  have hindent : IsIndent ['\t'] := by
    simp [IsIndent]
  exact ⟨hitems, hspell, hindent, ofFormat_paired hitems hspell hindent⟩

end Table

end Mapping

end Renaming
