import Renaming.Mapping.ProGuard
import Renaming.Mapping.Tiny
import Renaming.Proofs.Mapping.Blocks
import Renaming.Proofs.Mapping.RowEffect
import Renaming.Proofs.Symbol.Display

/-!
# `Proofs/Mapping/BlockEffect` — classes with the rows below them

TSRG in both versions, the second version of Tiny and reports of ProGuard put members below their
class. For each of them two things are shown: a row below a class changes this class and depends on
nothing but the place of the cursor (`staysBelow`), and a row at the margin has one effect wherever
it stands. So a block has one effect, too.
-/

set_option autoImplicit false

namespace Renaming

namespace Mapping

/-! ## Rows below a class -/

section Inner

variable {σ κ ρ : Type} {step : σ → Nat × Text → Except Fault σ} {mapping : σ → Mapping}
  {cursor : σ → κ} {rest : σ → ρ} {line : Text} {k k' : κ} {first : Text}

theorem below_addRow (kind : MemberKind) (row : MemberRow) : Below (ClassRow.addRow kind row) := by
  refine ⟨fun c => ?_, fun c => ?_⟩
  · cases kind <;> rfl
  · cases kind <;> rfl

/-- A row that changes the class. -/
theorem exists_changes {change : ClassRow → ClassRow} (hbelow : Below change)
    (h : ∀ s, cursor s = k → ∀ n, ∃ s', step s (n, line) = .ok s' ∧ cursor s' = k' ∧
      rest s' = rest s ∧ mapping s' = (mapping s).onOwner first change) :
    ∃ change, Below change ∧ Changes step mapping cursor rest [line] k k' first change :=
  ⟨change, hbelow, Leads.row fun s hs n => h s hs.1 n⟩

/-- A row that adds a member. -/
theorem exists_changes_addRow (kind : MemberKind) (row : MemberRow)
    (h : ∀ s, cursor s = k → ∀ n, ∃ s', step s (n, line) = .ok s' ∧ cursor s' = k' ∧
      rest s' = rest s ∧ mapping s' = (mapping s).addMember first (kind, row)) :
    ∃ change, Below change ∧ Changes step mapping cursor rest [line] k k' first change := by
  apply exists_changes (below_addRow kind row)
  cases kind <;> exact h

/-- A row that changes nothing. -/
theorem exists_changes_none
    (h : ∀ s, cursor s = k → ∀ n, ∃ s', step s (n, line) = .ok s' ∧ cursor s' = k' ∧
      rest s' = rest s ∧ mapping s' = mapping s) :
    ∃ change, Below change ∧ Changes step mapping cursor rest [line] k k' first change := by
  refine ⟨fun c => c, ⟨fun _ => rfl, fun _ => rfl⟩, Leads.row fun s hs n => ?_⟩
  obtain ⟨s', hstep, hcursor, hrest, hmapping⟩ := h s hs.1 n
  refine ⟨s', hstep, hcursor, hrest, ?_⟩
  rw [hmapping, onOwner_id hs.2]

end Inner

/-! ## TSRG -/

theorem staysBelow_tsrg {line : Text} (hline : isIndented line = true) :
    StaysBelow tsrgStep Reading.mapping Reading.current (fun _ => ()) id line := by
  intro s n s' first hcurrent hstep
  change s.current = some first at hcurrent
  simp only [tsrgStep, hline, if_true, hcurrent] at hstep
  split at hstep
  · rename_i source target hfields
    cases hstep
    refine ⟨rfl, exists_changes_addRow .field ⟨twoNames source target, none, none⟩
      fun s₂ hs₂ n => ?_⟩
    simp only [tsrgStep, hline, if_true, hs₂, hcurrent, hfields]
    exact ⟨_, rfl, rfl, trivial, rfl⟩
  · rename_i source descriptor target hfields
    cases hstep
    refine ⟨rfl, exists_changes_addRow .method ⟨twoNames source target, some descriptor, none⟩
      fun s₂ hs₂ n => ?_⟩
    simp only [tsrgStep, hline, if_true, hs₂, hcurrent, hfields]
    exact ⟨_, rfl, rfl, trivial, rfl⟩
  · cases hstep

/-- Below no class there is no row. -/
theorem tsrgStep_of_none {line : Text} (hline : isIndented line = true) {s : Reading}
    (hs : s.current = none) (n : Nat) :
    tsrgStep s (n, line) = .error (.format (.memberOutsideClass n)) := by
  simp only [tsrgStep, hline, if_true, hs]

/-- **A package row or a class of TSRG has one effect.** -/
theorem exists_does_tsrg {top : Text} (htop : isIndented top = false) {s s' : Reading} {n : Nat}
    {rows : List (Nat × Text)} (hrows : ∀ row ∈ rows, isIndented row.2 = true)
    (hread : readLines tsrgStep s ((n, top) :: rows) = .ok s') :
    ∃ e : Effect, Does tsrgStep (fun _ => True) Reading.mapping Effect.into
      (top :: rows.map Prod.snd) e := by
  obtain ⟨mid, hstep, hbelow⟩ := readLines_cons_eq_ok hread
  simp only [tsrgStep, htop, Bool.false_eq_true, if_false] at hstep
  split at hstep
  · rename_i source target hfields
    split at hstep
    · rename_i hslash
      cases hstep
      cases rows with
      | nil =>
        refine ⟨.package source target, Leads.row fun s₂ _ n => ?_⟩
        simp only [tsrgStep, htop, Bool.false_eq_true, if_false, hfields, hslash, if_true]
        exact ⟨_, rfl, trivial, rfl⟩
      | cons row rows =>
        -- a package has no members
        obtain ⟨_, hfirst, -⟩ := readLines_cons_eq_ok hbelow
        rw [tsrgStep_of_none (hrows row List.mem_cons_self) rfl] at hfirst
        cases hfirst
    · rename_i hslash
      obtain ⟨r, hdeclare, -⟩ := exists_of_bind_eq_ok hstep
      obtain ⟨first, -, -, hall⟩ := exists_enter_of_declare hdeclare
      have htop' : ∀ s : Reading, True → ∀ n, ∃ s', tsrgStep s (n, top) = .ok s' ∧
          s'.current = some first ∧ () = id () ∧
          s'.mapping = s.mapping.enter first (twoNames source target) := by
        intro s _ n
        simp only [tsrgStep, htop, Bool.false_eq_true, if_false, hfields, hslash, hall]
        exact ⟨_, rfl, rfl, trivial, rfl⟩
      obtain ⟨change, -, hleads⟩ := exists_block id (fun _ => True) id rfl htop'
        (fun row hrow => staysBelow_tsrg (hrows row hrow)) trivial hread
      exact ⟨.onClass first change, hleads.mono fun s₂ _ s₂' h => ⟨trivial, h.2⟩⟩
  · cases hstep

/-! ## TSRG2 -/

section Tsrg2

variable {width : Nat}

/-- A field with or without a descriptor, or a method. -/
theorem staysBelow_tsrg2_member {line : Text} (hdepth : tabDepth line = 1) :
    StaysBelow (tsrg2Step width) Reading.mapping Reading.current (fun _ => ()) id line := by
  intro s n s' first hcurrent hstep
  change s.current = some first at hcurrent
  simp only [tsrg2Step, hdepth, hcurrent] at hstep
  split at hstep
  · rename_i hlength
    cases hstep
    refine ⟨rfl, exists_changes_addRow .field ⟨(Text.fields line).map some, none, none⟩
      fun s₂ hs₂ n => ?_⟩
    simp only [tsrg2Step, hdepth, hs₂, hcurrent, hlength, if_true]
    exact ⟨_, rfl, rfl, trivial, rfl⟩
  · rename_i hlength
    split at hstep
    · rename_i name descriptor others htokens
      split at hstep
      · rename_i hmember
        rw [htokens] at hlength hmember
        split at hstep
        · rename_i hparen
          cases hstep
          refine ⟨rfl, exists_changes_addRow .method
            ⟨(name :: others).map some, some descriptor, none⟩ fun s₂ hs₂ n => ?_⟩
          simp only [tsrg2Step, hdepth, hs₂, hcurrent, if_neg hlength, htokens, if_pos hmember,
            if_pos hparen]
          exact ⟨_, rfl, rfl, trivial, rfl⟩
        · rename_i hparen
          cases hstep
          refine ⟨rfl, exists_changes_addRow .field
            ⟨(name :: others).map some, some descriptor, none⟩ fun s₂ hs₂ n => ?_⟩
          simp only [tsrg2Step, hdepth, hs₂, hcurrent, if_neg hlength, htokens, if_pos hmember,
            if_neg hparen]
          exact ⟨_, rfl, rfl, trivial, rfl⟩
      · cases hstep
    · cases hstep

theorem staysBelow_tsrg2 {line : Text} (hline : tabDepth line ≠ 0) :
    StaysBelow (tsrg2Step width) Reading.mapping Reading.current (fun _ => ()) id line := by
  cases hdepth : tabDepth line with
  | zero => exact absurd hdepth hline
  | succ depth =>
    cases depth with
    | zero => exact staysBelow_tsrg2_member hdepth
    | succ depth =>
      -- what is below a member is passed over
      intro s n s' first hcurrent hstep
      simp only [tsrg2Step, hdepth] at hstep
      cases hstep
      refine ⟨hcurrent, exists_changes_none fun s₂ hs₂ n => ?_⟩
      simp only [tsrg2Step, hdepth]
      exact ⟨_, rfl, hs₂, trivial, rfl⟩

/-- **A class of TSRG2 has one effect.** -/
theorem exists_does_tsrg2 {top : Text} (htop : tabDepth top = 0) {s s' : Reading} {n : Nat}
    {rows : List (Nat × Text)} (hrows : ∀ row ∈ rows, tabDepth row.2 ≠ 0)
    (hread : readLines (tsrg2Step width) s ((n, top) :: rows) = .ok s') :
    ∃ e : Effect, Does (tsrg2Step width) (fun _ => True) Reading.mapping Effect.into
      (top :: rows.map Prod.snd) e := by
  obtain ⟨mid, hstep, -⟩ := readLines_cons_eq_ok hread
  simp only [tsrg2Step, htop] at hstep
  split at hstep
  · rename_i hlength
    obtain ⟨r, hdeclare, -⟩ := exists_of_bind_eq_ok hstep
    obtain ⟨first, -, -, hall⟩ := exists_enter_of_declare hdeclare
    have htop' : ∀ s : Reading, True → ∀ n, ∃ s', tsrg2Step width s (n, top) = .ok s' ∧
        s'.current = some first ∧ () = id () ∧
        s'.mapping = s.mapping.enter first ((Text.fields top).map some) := by
      intro s _ n
      simp only [tsrg2Step, htop, hlength, if_true, hall]
      exact ⟨_, rfl, rfl, trivial, rfl⟩
    obtain ⟨change, -, hleads⟩ := exists_block id (fun _ => True) id rfl htop'
      (fun row hrow => staysBelow_tsrg2 (hrows row hrow)) trivial hread
    exact ⟨.onClass first change, hleads.mono fun s₂ _ s₂' h => ⟨trivial, h.2⟩⟩
  · cases hstep

end Tsrg2

/-! ## Tiny, version 2 -/

section Tiny2

variable {width : Nat}

/-- Where a reader of Tiny v2 stands, all but the mapping. -/
def Tiny2Reading.cursor (s : Tiny2Reading) : Bool × Option Text × Option MemberKind :=
  (s.escaped, s.current, s.member)

theorem below_comment (comment : Text) :
    Below fun c => { c with comment := some comment } := ⟨fun _ => rfl, fun _ => rfl⟩

/-- A comment on the member that was read last. -/
theorem below_commentLast (kind : MemberKind) (comment : Text) : Below fun c =>
    match kind with
    | .field => { c with fields := commentLast comment c.fields }
    | .method => { c with methods := commentLast comment c.methods } := by
  refine ⟨fun c => ?_, fun c => ?_⟩
  · cases kind <;> rfl
  · cases kind <;> rfl

/-- A member of a class, or a comment on the class. -/
theorem staysBelow_tiny2_member {line : Text} (hdepth : tabDepth line = 1) :
    StaysBelow (tiny2Step width) Tiny2Reading.mapping Tiny2Reading.cursor Tiny2Reading.escaped
      (fun k => k.2.1) line := by
  rintro ⟨m, escaped, current, member⟩ n s' first (rfl : current = some first) hstep
  simp only [tiny2Step, tiny2Member, hdepth] at hstep
  split at hstep
  · rename_i hcolumns
    cases hstep
    refine ⟨rfl, exists_changes (below_comment (rowComment (line.drop 1))) ?_⟩
    rintro ⟨m₂, _, _, _⟩ ⟨⟩ n
    simp only [tiny2Step, tiny2Member, hdepth, hcolumns]
    exact ⟨_, rfl, rfl, rfl, rfl⟩
  · rename_i descriptor cells hcolumns
    split at hstep
    · rename_i hlength
      cases hstep
      refine ⟨rfl, exists_changes_addRow .field ⟨Tiny.names escaped cells, some descriptor, none⟩ ?_⟩
      rintro ⟨m₂, _, _, _⟩ ⟨⟩ n
      simp only [tiny2Step, tiny2Member, hdepth, hcolumns, if_pos hlength]
      exact ⟨_, rfl, rfl, rfl, rfl⟩
    · cases hstep
  · rename_i descriptor cells hcolumns
    split at hstep
    · rename_i hlength
      cases hstep
      refine ⟨rfl, exists_changes_addRow .method ⟨Tiny.names escaped cells, some descriptor, none⟩ ?_⟩
      rintro ⟨m₂, _, _, _⟩ ⟨⟩ n
      simp only [tiny2Step, tiny2Member, hdepth, hcolumns, if_pos hlength]
      exact ⟨_, rfl, rfl, rfl, rfl⟩
    · cases hstep
  · cases hstep

/-- A comment on the member above, or a row that is passed over. -/
theorem staysBelow_tiny2_deeper {line : Text} {depth : Nat} (hdepth : tabDepth line = depth + 2) :
    StaysBelow (tiny2Step width) Tiny2Reading.mapping Tiny2Reading.cursor Tiny2Reading.escaped
      (fun k => k.2.1) line := by
  rintro ⟨m, escaped, current, member⟩ n s' first (rfl : current = some first) hstep
  cases depth with
  | zero =>
    simp only [tiny2Step, hdepth] at hstep
    split at hstep
    · rename_i kind _ hcolumns
      cases hstep
      refine ⟨rfl, exists_changes (below_commentLast kind (rowComment (line.drop 2))) ?_⟩
      rintro ⟨m₂, _, _, _⟩ ⟨⟩ n
      simp only [tiny2Step, hdepth, hcolumns]
      exact ⟨_, rfl, rfl, rfl, rfl⟩
    · rename_i hnot
      cases hstep
      refine ⟨rfl, exists_changes_none ?_⟩
      rintro ⟨m₂, _, _, _⟩ ⟨⟩ n
      simp only [tiny2Step, hdepth]
      exact ⟨_, rfl, rfl, rfl, rfl⟩
  | succ depth =>
    simp only [tiny2Step, hdepth] at hstep
    cases hstep
    refine ⟨rfl, exists_changes_none ?_⟩
    rintro ⟨m₂, _, _, _⟩ ⟨⟩ n
    simp only [tiny2Step, hdepth]
    exact ⟨_, rfl, rfl, rfl, rfl⟩

theorem staysBelow_tiny2 {line : Text} (hline : tabDepth line ≠ 0) :
    StaysBelow (tiny2Step width) Tiny2Reading.mapping Tiny2Reading.cursor Tiny2Reading.escaped
      (fun k => k.2.1) line := by
  cases hdepth : tabDepth line with
  | zero => exact absurd hdepth hline
  | succ depth =>
    cases depth with
    | zero => exact staysBelow_tiny2_member hdepth
    | succ depth => exact staysBelow_tiny2_deeper hdepth

/-- **A class of Tiny v2 has one effect**, which depends on whether names are escaped. -/
theorem exists_does_tiny2 {escaped : Bool} {top : Text} (htop : tabDepth top = 0)
    {s s' : Tiny2Reading} (hs : s.escaped = escaped) {n : Nat} {rows : List (Nat × Text)}
    (hrows : ∀ row ∈ rows, tabDepth row.2 ≠ 0)
    (hread : readLines (tiny2Step width) s ((n, top) :: rows) = .ok s') :
    ∃ e : Effect, Does (tiny2Step width) (fun s => s.escaped = escaped) Tiny2Reading.mapping
      Effect.into (top :: rows.map Prod.snd) e := by
  obtain ⟨mid, hstep, -⟩ := readLines_cons_eq_ok hread
  simp only [tiny2Step, htop, tiny2Class] at hstep
  split at hstep
  · rename_i cells hcolumns
    split at hstep
    · rename_i hlength
      obtain ⟨r, hdeclare, -⟩ := exists_of_bind_eq_ok hstep
      rw [hs] at hdeclare
      obtain ⟨first, -, -, hall⟩ := exists_enter_of_declare hdeclare
      have htop' : ∀ s : Tiny2Reading, s.escaped = escaped → ∀ n, ∃ s',
          tiny2Step width s (n, top) = .ok s' ∧ s'.cursor = (escaped, some first, none) ∧
          s'.escaped = id s.escaped ∧
          s'.mapping = s.mapping.enter first (Tiny.names escaped cells) := by
        intro s hs n
        simp only [tiny2Step, htop, tiny2Class, hcolumns, if_pos hlength, hs, hall]
        exact ⟨_, rfl, rfl, rfl, rfl⟩
      obtain ⟨change, -, hleads⟩ := exists_block (fun k => k.2.1) (fun s => s.escaped = escaped) id rfl
        htop' (fun row hrow => staysBelow_tiny2 (hrows row hrow)) hs hread
      exact ⟨.onClass first change, hleads.mono fun s₂ hs₂ s₂' h => ⟨h.1.trans hs₂, h.2⟩⟩
    · cases hstep
  · cases hstep

end Tiny2

/-! ## Reports -/

/-- Whether a line of a report is the row of a class. -/
def isReportClass (line : Text) : Bool :=
  !Text.startsWith ['#'] (Text.trimLeft line) &&
    (ProGuard.classRow? (Text.trimRight line)).isSome

theorem staysBelow_proguard {line : Text} (hline : isReportClass line = false) :
    StaysBelow proguardStep ReportReading.mapping ReportReading.current ReportReading.obfuscated id
      line := by
  rintro ⟨m, obfuscated, current⟩ n s' first (rfl : current = some first) hstep
  unfold isReportClass at hline
  simp only [proguardStep] at hstep
  split at hstep
  · rename_i hcomment
    cases hstep
    refine ⟨rfl, exists_changes_none ?_⟩
    rintro ⟨m₂, _, _⟩ ⟨⟩ n
    simp only [proguardStep, if_pos hcomment]
    exact ⟨_, rfl, rfl, rfl, rfl⟩
  · rename_i hcomment
    have hclass : ProGuard.classRow? (Text.trimRight line) = none := by
      simpa [hcomment] using hline
    rw [hclass] at hstep
    cases hmember : ProGuard.memberRow? (Text.trimRight line) with
    | none => rw [hmember] at hstep; cases hstep
    | some member =>
      simp only [hmember] at hstep
      split at hstep
      · rename_i hdot
        cases hstep
        refine ⟨rfl, exists_changes_none ?_⟩
        rintro ⟨m₂, _, _⟩ ⟨⟩ n
        simp only [proguardStep, if_neg hcomment, hclass, hmember, if_pos hdot]
        exact ⟨_, rfl, rfl, rfl, rfl⟩
      · rename_i hdot
        split at hstep
        · rename_i hfield
          cases hstep
          refine ⟨rfl, exists_changes_addRow .field
            ⟨twoNames member.obfuscated member.name, some member.descriptor, none⟩ ?_⟩
          rintro ⟨m₂, _, _⟩ ⟨⟩ n
          simp only [proguardStep, if_neg hcomment, hclass, hmember, if_neg hdot, if_pos hfield]
          exact ⟨_, rfl, rfl, rfl, rfl⟩
        · rename_i hfield
          cases hstep
          refine ⟨rfl, exists_changes_addRow .method
            ⟨twoNames member.obfuscated member.name, some member.descriptor, none⟩ ?_⟩
          rintro ⟨m₂, _, _⟩ ⟨⟩ n
          simp only [proguardStep, if_neg hcomment, hclass, hmember, if_neg hdot, if_neg hfield]
          exact ⟨_, rfl, rfl, rfl, rfl⟩

/-- What a class of a report does: it changes the class of its obfuscated name, and tells under
which readable name it is. -/
structure ReportEffect where
  change : ClassRow → ClassRow
  readable : Text
  obfuscated : Text

namespace ReportEffect

def effect (e : ReportEffect) : Effect := .onClass e.obfuscated e.change

/-- What is told so far of a mapping and of obfuscated names, with one class more. -/
def into (p : Mapping × OrderedMap Text Text) (e : ReportEffect) : Mapping × OrderedMap Text Text :=
  (e.effect.into p.1, p.2.insert e.readable e.obfuscated)

/-- The class has both of its names afterwards. -/
structure Names (e : ReportEffect) : Prop where
  readable : e.readable ≠ []
  obfuscated : e.obfuscated ≠ []
  names : ∀ c, (e.change c).names = twoNames e.obfuscated e.readable
  declared : ∀ c, (e.change c).declared = true

end ReportEffect

theorem readable_isField {line readable obfuscated : Text}
    (h : ProGuard.classRow? line = some (readable, obfuscated)) : readable.IsField := by
  unfold ProGuard.classRow? at h
  split at h
  · cases h
  · split at h
    · cases h
    · split at h
      · rename_i hfields
        split at h
        · cases h
          exact Text.of_mem_fields (hfields ▸ List.mem_cons_self)
        · cases h
      · cases h

/-- **A class of a report has one effect**, and tells its two names. -/
theorem exists_does_proguard {top : Text} (htop : isReportClass top = true) {s s' : ReportReading}
    {n : Nat} {rows : List (Nat × Text)} (hrows : ∀ row ∈ rows, isReportClass row.2 = false)
    (hread : readLines proguardStep s ((n, top) :: rows) = .ok s') :
    ∃ e : ReportEffect, e.Names ∧ Does proguardStep (fun _ => True)
      (fun s => (s.mapping, s.obfuscated)) ReportEffect.into (top :: rows.map Prod.snd) e := by
  obtain ⟨mid, hstep, -⟩ := readLines_cons_eq_ok hread
  simp only [isReportClass, Bool.and_eq_true, Bool.not_eq_true', Option.isSome_iff_exists] at htop
  obtain ⟨hcomment, ⟨readable, obfuscated⟩, hclass⟩ := htop
  simp only [proguardStep, hcomment, Bool.false_eq_true, if_false, hclass] at hstep
  obtain ⟨r, hdeclare, -⟩ := exists_of_bind_eq_ok hstep
  obtain ⟨first, hfirst, hne, hall⟩ := exists_enter_of_declare hdeclare
  obtain rfl : Descriptor.internalName obfuscated = first := Option.some.inj (Option.some.inj hfirst)
  have htop' : ∀ s : ReportReading, True → ∀ n, ∃ s', proguardStep s (n, top) = .ok s' ∧
      s'.current = some (Descriptor.internalName obfuscated) ∧
      s'.obfuscated = s.obfuscated.insert (Descriptor.internalName readable)
        (Descriptor.internalName obfuscated) ∧
      s'.mapping = s.mapping.enter (Descriptor.internalName obfuscated)
        (twoNames (Descriptor.internalName obfuscated) (Descriptor.internalName readable)) := by
    intro s _ n
    simp only [proguardStep, hcomment, Bool.false_eq_true, if_false, hclass, hall]
    exact ⟨_, rfl, rfl, rfl, rfl⟩
  obtain ⟨change, hnames, hleads⟩ := exists_block id (fun _ => True)
    (fun o => o.insert (Descriptor.internalName readable) (Descriptor.internalName obfuscated)) rfl htop'
    (fun row hrow => staysBelow_proguard (hrows row hrow)) trivial hread
  refine ⟨⟨change, Descriptor.internalName readable, Descriptor.internalName obfuscated⟩, ?_,
    hleads.mono fun s₂ _ s₂' h => ⟨trivial, Prod.ext h.2 h.1⟩⟩
  exact ⟨(DisplayType.isField_internalName (readable_isField hclass)).1, hne,
    fun c => (hnames c).1, fun c => (hnames c).2⟩

end Mapping

end Renaming
