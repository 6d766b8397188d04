import Renaming.Mapping.Load
import Renaming.Proofs.Ending
import Renaming.Proofs.Mapping.Notation
import Renaming.Proofs.Mapping.Owner
import Renaming.Proofs.Mapping.Rows

/-!
# `Proofs/Mapping/Rectangular` — what every reader leaves behind

A row can be wrong in many ways: too few columns, an owner that is none, a header without names. A
reader either says which row it is that it cannot read, or

> it makes a mapping in which each class and each member has as many names as there are namespaces,
> and each class is kept under the first of its names (`Rectangular`).

A class that is only mentioned may lack all other names, and even its first name may be empty; one
with a row of its own has a first name. Two of its namespaces can be chosen from such a mapping, so
that only a namespace that is not there can be refused (`ends_tiers`).
-/

set_option autoImplicit false

namespace Renaming

/-- The class is kept under its first name and has `width` names, as has each of its members. -/
structure ClassRow.Fits (width : Nat) (key : Text) (c : ClassRow) : Prop where
  length : c.names.length = width
  first : c.names.head? = some (some key)
  declared : c.declared = true → key ≠ []
  members : ∀ kind, ∀ row ∈ MemberKind.rows kind c, row.names.length = width

/-- A class row changes the class and none of its members. -/
theorem ClassRow.Fits.named {width : Nat} {key : Text} {c : ClassRow} (hc : c.Fits width key)
    {names : List (Option Text)} {declared : Bool} (hlength : names.length = width)
    (hfirst : names.head? = some (some key)) (hdeclared : declared = true → key ≠ [])
    (comment : Option Text) : ClassRow.Fits width key
      { c with names := names, declared := declared, comment := comment } where
  length := hlength
  first := hfirst
  declared := hdeclared
  members kind row hrow := hc.members kind row (by cases kind <;> exact hrow)

namespace Mapping

/-- Classes and members have one name for each of these namespaces. -/
structure Rectangular (namespaces : List Text) (m : Mapping) : Prop where
  namespaces_eq : m.namespaces = namespaces
  classes : ∀ first c, m.classes.get? first = some c → c.Fits namespaces.length first

/-- The row or the header cannot be read, and the fault says so. -/
def IsRefusal (f : Fault) : Prop := ∃ g, f = .format g

/-! ## Rows that are added -/

theorem eq_some_of_bind_nonempty? {name : Option Text} {t : Text}
    (h : name.bind Text.nonempty? = some t) : name = some t ∧ t ≠ [] := by
  obtain ⟨s, hs, hnonempty⟩ := Option.bind_eq_some_iff.1 h
  cases s with
  | nil => cases hnonempty
  | cons c r =>
    cases hnonempty
    exact ⟨hs, List.cons_ne_nil c r⟩

/-- A comment changes no name. -/
theorem exists_names_eq_of_mem_commentLast {comment : Text} {rows : List MemberRow} {row : MemberRow}
    (h : row ∈ commentLast comment rows) : ∃ row' ∈ rows, row.names = row'.names := by
  induction rows with
  | nil => cases h
  | cons r rs ih =>
    cases rs with
    | nil =>
      rw [List.mem_singleton.1 h]
      exact ⟨r, List.mem_cons_self, rfl⟩
    | cons s rs =>
      rcases List.mem_cons.1 h with rfl | hrest
      · exact ⟨row, List.mem_cons_self, rfl⟩
      · obtain ⟨row', hrow', heq⟩ := ih hrest
        exact ⟨row', List.mem_cons_of_mem _ hrow', heq⟩

theorem rectangular_ofNamespaces (format : Format) (namespaces : List Text) :
    (ofNamespaces format namespaces).Rectangular namespaces where
  namespaces_eq := rfl
  classes _ _ h := nomatch h

namespace Rectangular

variable {namespaces : List Text} {m : Mapping} (h : m.Rectangular namespaces)

include h

theorem addPackage (source target : Text) : (m.addPackage source target).Rectangular namespaces :=
  ⟨h.namespaces_eq, h.classes⟩

variable (hne : namespaces ≠ [])

include hne

theorem fits_mentioned (first : Text) : (m.mentioned first).Fits namespaces.length first where
  length := by
    have hpos : 0 < namespaces.length := List.length_pos_of_ne_nil hne
    simp only [mentioned, h.namespaces_eq, List.length_cons, List.length_replicate]
    omega
  first := rfl
  declared := nofun
  members kind row hrow := by cases kind <;> cases hrow

/-- **A class may be changed into whatever still fits.** -/
theorem onOwner {first : Text} {f : ClassRow → ClassRow}
    (hf : ∀ c, c.Fits namespaces.length first → (f c).Fits namespaces.length first) :
    (m.onOwner first f).Rectangular namespaces := by
  constructor
  · rw [onOwner_eq]
    exact h.namespaces_eq
  · intro first' c hc
    rw [get?_onOwner] at hc
    split at hc
    · rename_i heq
      cases hc
      rw [heq]
      apply hf
      cases hclass : m.classes.get? first with
      | some c => exact h.classes first c hclass
      | none => exact h.fits_mentioned hne first
    · exact h.classes first' c hc

theorem addMember {owner : Text} {p : MemberKind × MemberRow}
    (hrow : p.2.names.length = namespaces.length) :
    (m.addMember owner p).Rectangular namespaces := by
  obtain ⟨kind, row⟩ := p
  cases kind with
  | field =>
    apply h.onOwner hne
    intro c hc
    refine ⟨hc.length, hc.first, hc.declared, ?_⟩
    rintro (_ | _) row' hrow'
    · rcases List.mem_append.1 hrow' with hold | hnew
      · exact hc.members .field row' hold
      · rw [List.mem_singleton.1 hnew]
        exact hrow
    · exact hc.members .method row' hrow'
  | method =>
    apply h.onOwner hne
    intro c hc
    refine ⟨hc.length, hc.first, hc.declared, ?_⟩
    rintro (_ | _) row' hrow'
    · exact hc.members .field row' hrow'
    · rcases List.mem_append.1 hrow' with hold | hnew
      · exact hc.members .method row' hold
      · rw [List.mem_singleton.1 hnew]
        exact hrow

/-- A class row without a first name is refused, and any other fits. -/
theorem declare {names : List (Option Text)} (hnames : names.length = namespaces.length)
    (comment : Option Text) :
    Ends (fun p => p.1.Rectangular namespaces) IsRefusal (m.declare names comment) := by
  cases names with
  | nil => exact absurd (List.length_eq_zero_iff.1 hnames.symm) hne
  | cons first others =>
    rw [Mapping.declare]
    cases hfirst : first.bind Text.nonempty? with
    | none => exact ⟨_, rfl⟩
    | some name =>
      obtain ⟨hname, hnonempty⟩ := eq_some_of_bind_nonempty? hfirst
      apply h.onOwner hne
      intro c hc
      exact hc.named hnames (congrArg some hname) (fun _ => hnonempty) _

/-- A name that is filled in later is not the first one. -/
theorem mentionOwners (source target : Text) :
    (m.mentionOwners source target).Rectangular namespaces := by
  apply h.onOwner hne
  intro c hc
  have hset : ∀ name, (c.names.set 1 name).head? = c.names.head? := by
    intro name
    cases c.names <;> rfl
  apply hc.named _ _ hc.declared c.comment
  · unfold nameIfMissing
    split
    · exact hc.length
    · rw [List.length_set]
      exact hc.length
  · unfold nameIfMissing
    split
    · exact hc.first
    · rw [hset]
      exact hc.first

/-- Members that are changed without their names. -/
theorem onMembers {first : Text} {f : ClassRow → ClassRow}
    (hnames : ∀ c, (f c).names = c.names) (hdeclared : ∀ c, (f c).declared = c.declared)
    (hrows : ∀ kind c, ∀ row ∈ MemberKind.rows kind (f c),
      ∃ row' ∈ MemberKind.rows kind c, row.names = row'.names) :
    (m.onOwner first f).Rectangular namespaces := by
  apply h.onOwner hne
  intro c hc
  constructor
  · rw [hnames]
    exact hc.length
  · rw [hnames]
    exact hc.first
  · rw [hdeclared]
    exact hc.declared
  · intro kind row hrow
    obtain ⟨row', hrow', heq⟩ := hrows kind c row hrow
    rw [heq]
    exact hc.members kind row' hrow'

theorem commentMember (owner : Text) (kind : MemberKind) (comment : Text) :
    (m.commentMember owner kind comment).Rectangular namespaces := by
  apply h.onMembers hne
  · intro c
    cases kind <;> rfl
  · intro c
    cases kind <;> rfl
  · intro kind' c row hrow
    cases kind with
    | field =>
      cases kind' with
      | field => exact exists_names_eq_of_mem_commentLast hrow
      | method => exact ⟨row, hrow, rfl⟩
    | method =>
      cases kind' with
      | field => exact ⟨row, hrow, rfl⟩
      | method => exact exists_names_eq_of_mem_commentLast hrow

theorem renameDescriptors (f : Text → Text) : (m.renameDescriptors f).Rectangular namespaces := by
  apply List.foldlRecOn (motive := fun m : Mapping => m.Rectangular namespaces) m.classes.keys
  · exact h
  · intro m' hm' first _
    apply hm'.onMembers hne
    · exact fun _ => rfl
    · exact fun _ => rfl
    · rintro (_ | _) c row hrow <;>
        obtain ⟨row', hrow', rfl⟩ := List.mem_map.1 hrow <;>
        exact ⟨row', hrow', rfl⟩

end Rectangular

/-! ## Reading rows -/

section Steps

variable {namespaces : List Text}

theorem ends_srgMember (number : Nat) (token : Text) :
    Ends (fun _ => True) IsRefusal (srgMember number token) := by
  unfold srgMember
  split
  · exact trivial
  · exact ⟨_, rfl⟩

/-- Both tokens of an SRG row have an owner, or the row is refused. -/
theorem ends_srgMembers (number : Nat) (source target : Text)
    {added : MemberKey → MemberKey → Mapping} (h : ∀ s t, (added s t).Rectangular twoTiers) :
    Ends (·.Rectangular twoTiers) IsRefusal (do
      let s ← srgMember number source
      let t ← srgMember number target
      return added s t) := by
  apply (ends_srgMember number source).bind
  intro s _
  apply (ends_srgMember number target).bind
  exact fun t _ => h s t

theorem ends_srgStep {m : Mapping} (h : m.Rectangular twoTiers) (p : Nat × Text) :
    Ends (·.Rectangular twoTiers) IsRefusal (srgStep m p) := by
  have hne : twoTiers ≠ [] := List.cons_ne_nil _ _
  have howners : ∀ s t : MemberKey, (m.mentionOwners s.owner t.owner).Rectangular twoTiers :=
    fun s t => h.mentionOwners hne s.owner t.owner
  obtain ⟨number, line⟩ := p
  unfold srgStep
  dsimp only
  split
  · exact h.addPackage _ _
  · apply (h.declare hne rfl none).map
    exact fun _ hm => hm
  · exact ends_srgMembers number _ _ fun s t => (howners s t).addMember hne (p := (.field, _)) rfl
  · exact ends_srgMembers number _ _ fun s t => (howners s t).addMember hne (p := (.field, _)) rfl
  · exact ends_srgMembers number _ _ fun s t => (howners s t).addMember hne (p := (.method, _)) rfl
  · exact ⟨_, rfl⟩

theorem ends_csrgStep {m : Mapping} (h : m.Rectangular twoTiers) (p : Nat × Text) :
    Ends (·.Rectangular twoTiers) IsRefusal (csrgStep m p) := by
  have hne : twoTiers ≠ [] := List.cons_ne_nil _ _
  obtain ⟨number, line⟩ := p
  unfold csrgStep
  dsimp only
  split
  · split
    · exact h.addPackage _ _
    · apply (h.declare hne rfl none).map
      exact fun _ hm => hm
  · exact h.addMember hne (p := (.field, _)) rfl
  · split
    · exact h.addMember hne (p := (.method, _)) rfl
    · exact ⟨_, rfl⟩
  · exact ⟨_, rfl⟩

theorem ends_tsrgStep {s : Reading} (h : s.mapping.Rectangular twoTiers) (p : Nat × Text) :
    Ends (·.mapping.Rectangular twoTiers) IsRefusal (tsrgStep s p) := by
  have hne : twoTiers ≠ [] := List.cons_ne_nil _ _
  obtain ⟨number, line⟩ := p
  unfold tsrgStep
  dsimp only
  split
  · split
    · exact ⟨_, rfl⟩
    · split
      · exact h.addMember hne (p := (.field, _)) rfl
      · exact h.addMember hne (p := (.method, _)) rfl
      · exact ⟨_, rfl⟩
  · split
    · split
      · exact h.addPackage _ _
      · apply (h.declare hne rfl none).bind
        exact fun _ hm => hm
    · exact ⟨_, rfl⟩

variable (hne : namespaces ≠ [])

include hne

theorem ends_tsrg2Step {s : Reading} (h : s.mapping.Rectangular namespaces) (p : Nat × Text) :
    Ends (·.mapping.Rectangular namespaces) IsRefusal (tsrg2Step namespaces.length s p) := by
  obtain ⟨number, line⟩ := p
  unfold tsrg2Step
  dsimp only
  split
  · split
    · rename_i hlength
      apply (h.declare hne (by rw [List.length_map]; exact hlength) none).bind
      exact fun _ hm => hm
    · exact ⟨_, rfl⟩
  · split
    · exact ⟨_, rfl⟩
    · split
      · rename_i hlength
        apply h.addMember hne (p := (.field, _))
        rw [List.length_map]
        exact hlength
      · split
        · split
          · -- the descriptor is the one token that is no name
            rename_i first descriptor others htokens hlength
            have hrow : ((first :: others).map some).length = namespaces.length := by
              rw [htokens] at hlength
              rw [List.length_map]
              exact Nat.succ.inj hlength
            split
            · exact h.addMember hne (p := (.method, _)) hrow
            · exact h.addMember hne (p := (.field, _)) hrow
          · exact ⟨_, rfl⟩
        · exact ⟨_, rfl⟩
  · exact h

omit hne in
theorem length_names (escaped : Bool) (columns : List Text) :
    (Tiny.names escaped columns).length = columns.length := List.length_map _

theorem ends_tiny1Step {m : Mapping} (h : m.Rectangular namespaces) (p : Nat × Text) :
    Ends (·.Rectangular namespaces) IsRefusal (tiny1Step namespaces.length m p) := by
  obtain ⟨number, line⟩ := p
  unfold tiny1Step
  dsimp only
  split
  · split
    · split
      · rename_i hlength
        apply (h.declare hne ((length_names _ _).trans hlength) none).map
        exact fun _ hm => hm
      · exact ⟨_, rfl⟩
    · split
      · split
        · exact ⟨_, rfl⟩
        · rename_i hlength
          have hrow := (length_names false _).trans (not_not.1 hlength)
          split
          · exact h.addMember hne (p := (.field, _)) hrow
          · split
            · exact h.addMember hne (p := (.method, _)) hrow
            · exact ⟨_, rfl⟩
      · exact ⟨_, rfl⟩
  · exact ⟨_, rfl⟩

theorem ends_tiny2Class {s : Tiny2Reading} (h : s.mapping.Rectangular namespaces) (number : Nat)
    (line : Text) : Ends (·.mapping.Rectangular namespaces) IsRefusal
      (tiny2Class namespaces.length s number line) := by
  unfold tiny2Class
  split
  · split
    · rename_i hlength
      apply (h.declare hne ((length_names _ _).trans hlength) none).bind
      exact fun _ hm => hm
    · exact ⟨_, rfl⟩
  · exact ⟨_, rfl⟩

theorem ends_tiny2Member {s : Tiny2Reading} (h : s.mapping.Rectangular namespaces) (owner : Text)
    (number : Nat) (line row : Text) : Ends (·.mapping.Rectangular namespaces) IsRefusal
      (tiny2Member namespaces.length s owner number line row) := by
  unfold tiny2Member
  dsimp only
  split
  · apply h.onMembers hne
    · exact fun _ => rfl
    · exact fun _ => rfl
    · exact fun kind c row hrow => ⟨row, by cases kind <;> exact hrow, rfl⟩
  · split
    · rename_i hlength
      exact h.addMember hne (p := (.field, _)) ((length_names _ _).trans hlength)
    · exact ⟨_, rfl⟩
  · split
    · rename_i hlength
      exact h.addMember hne (p := (.method, _)) ((length_names _ _).trans hlength)
    · exact ⟨_, rfl⟩
  · exact ⟨_, rfl⟩

theorem ends_tiny2Step {s : Tiny2Reading} (h : s.mapping.Rectangular namespaces) (p : Nat × Text) :
    Ends (·.mapping.Rectangular namespaces) IsRefusal (tiny2Step namespaces.length s p) := by
  obtain ⟨number, line⟩ := p
  unfold tiny2Step
  dsimp only
  split
  · exact ends_tiny2Class hne h number line
  · split
    · exact h
    · exact h
  · exact ends_tiny2Member hne h _ number line _
  · split
    · exact h.commentMember hne _ _ _
    · exact h
  · exact h

omit hne in
theorem ends_proguardStep {s : ReportReading} (hlength : namespaces.length = 2)
    (h : s.mapping.Rectangular namespaces) (p : Nat × Text) :
    Ends (·.mapping.Rectangular namespaces) IsRefusal (proguardStep s p) := by
  have hne : namespaces ≠ [] := List.ne_nil_of_length_pos (by omega)
  obtain ⟨number, line⟩ := p
  unfold proguardStep
  dsimp only
  split
  · exact h
  · split
    · apply (h.declare hne (show (twoNames _ _).length = _ from hlength.symm) none).bind
      exact fun _ hm => hm
    · split
      · exact ⟨_, rfl⟩
      · split
        · exact ⟨_, rfl⟩
        · split
          · exact h
          · split
            · exact h.addMember hne (p := (.field, _)) hlength.symm
            · exact h.addMember hne (p := (.method, _)) hlength.symm

end Steps

/-! ## Reading texts -/

/-- A reader that keeps every class in shape ends with such a mapping or with the refusal of a
row. -/
theorem ends_readLines {σ : Type} (view : σ → Mapping) {step : σ → Nat × Text → Except Fault σ}
    {namespaces : List Text} {start : σ} (hstart : (view start).Rectangular namespaces)
    (hstep : ∀ s, (view s).Rectangular namespaces → ∀ p,
      Ends (fun s' => (view s').Rectangular namespaces) IsRefusal (step s p))
    (lines : List (Nat × Text)) :
    Ends (fun s => (view s).Rectangular namespaces) IsRefusal (readLines step start lines) :=
  Ends.foldlM hstart fun s hs p _ => hstep s hs p

/-- The mapping is rectangular over two namespaces or more. -/
structure Formed (m : Mapping) : Prop where
  two_le : 2 ≤ m.namespaces.length
  rectangular : m.Rectangular m.namespaces

theorem Rectangular.formed {namespaces : List Text} {m : Mapping} (h : m.Rectangular namespaces)
    (htwo : 2 ≤ namespaces.length) : m.Formed := by
  constructor
  · rw [h.namespaces_eq]
    exact htwo
  · rw [h.namespaces_eq]
    exact h

theorem ends_ofTsrg2 (text : Text) : Ends Formed IsRefusal (ofTsrg2 text) := by
  unfold ofTsrg2
  split
  · exact ⟨_, rfl⟩
  · split
    · split
      · rename_i hheader
        have hne : _ ≠ [] := List.ne_nil_of_length_pos (Nat.lt_of_lt_of_le Nat.two_pos hheader.2)
        apply (ends_readLines Reading.mapping (rectangular_ofNamespaces _ _)
          (fun s hs p => ends_tsrg2Step hne hs p) _).map
        exact fun s hs => hs.formed hheader.2
      · exact ⟨_, rfl⟩
    · exact ⟨_, rfl⟩

theorem ends_ofTiny1 (text : Text) : Ends Formed IsRefusal (ofTiny1 text) := by
  unfold ofTiny1
  split
  · exact ⟨_, rfl⟩
  · split
    · split
      · rename_i hheader
        have hne : _ ≠ [] := List.ne_nil_of_length_pos (Nat.lt_of_lt_of_le Nat.two_pos hheader.2)
        apply (ends_readLines id (rectangular_ofNamespaces _ _)
          (fun m hm p => ends_tiny1Step hne hm p) _).mono
        · exact fun m hm => hm.formed hheader.2
        · exact fun _ hf => hf
      · exact ⟨_, rfl⟩
    · exact ⟨_, rfl⟩

theorem ends_ofTiny2 (text : Text) : Ends Formed IsRefusal (ofTiny2 text) := by
  unfold ofTiny2
  split
  · exact ⟨_, rfl⟩
  · split
    · split
      · rename_i hheader
        have hne : _ ≠ [] := List.ne_nil_of_length_pos (Nat.lt_of_lt_of_le Nat.two_pos hheader)
        apply (ends_readLines Tiny2Reading.mapping (rectangular_ofNamespaces _ _)
          (fun s hs p => ends_tiny2Step hne hs p) _).map
        exact fun s hs => hs.formed hheader
      · exact ⟨_, rfl⟩
    · exact ⟨_, rfl⟩

theorem ends_ofProGuard (text : Text) : Ends Formed IsRefusal (ofProGuard text) := by
  unfold ofProGuard
  apply (ends_readLines ReportReading.mapping (rectangular_ofNamespaces _ _)
    (fun s hs p => ends_proguardStep rfl hs p) _).bind
  intro s hs
  exact (hs.renameDescriptors (List.cons_ne_nil _ _) _).formed (Nat.le_refl 2)

/-- **Every reader refuses a row or makes a rectangular mapping.** -/
theorem ends_reader {format : Format} {read : Text → Except Fault Mapping}
    (h : reader? format = some read) (text : Text) : Ends Formed IsRefusal (read text) := by
  cases format with
  | yaml => cases h
  | srg =>
    cases h
    apply (ends_readLines id (rectangular_ofNamespaces _ _)
      (fun m hm p => ends_srgStep hm p) _).mono
    · exact fun m hm => hm.formed (Nat.le_refl 2)
    · exact fun _ hf => hf
  | csrg =>
    cases h
    apply (ends_readLines id (rectangular_ofNamespaces _ _)
      (fun m hm p => ends_csrgStep hm p) _).mono
    · exact fun m hm => hm.formed (Nat.le_refl 2)
    · exact fun _ hf => hf
  | tsrg =>
    cases h
    apply (ends_readLines Reading.mapping (rectangular_ofNamespaces _ _)
      (fun s hs p => ends_tsrgStep hs p) _).map
    exact fun s hs => hs.formed (Nat.le_refl 2)
  | tsrg2 =>
    cases h
    exact ends_ofTsrg2 text
  | tiny1 =>
    cases h
    exact ends_ofTiny1 text
  | tiny2 =>
    cases h
    exact ends_ofTiny2 text
  | proguard =>
    cases h
    exact ends_ofProGuard text

/-- A class row whose first tier is empty is refused. -/
example : ofTiny1 "v1\ta\tb\nCLASS\t\tq/D\n".toList = .error (.format .classWithoutName) := by
  rfl

/-! ## Choosing tiers -/

/-- The fault says that one of the two requests is no namespace of the mapping. -/
def IsUnknownTier (m : Mapping) (source target : Option Text) (f : Fault) : Prop :=
  ∃ name, (source = some name ∨ target = some name) ∧ name ∉ m.namespaces ∧
    f = .namespaceNotFound name m.namespaces

theorem ends_tierIndex (m : Mapping) (requested : Option Text) (default : Nat) :
    Ends (fun _ => True)
      (fun f => ∃ name, requested = some name ∧ name ∉ m.namespaces ∧
        f = .namespaceNotFound name m.namespaces) (m.tierIndex requested default) := by
  unfold tierIndex
  split
  · exact trivial
  · rename_i name
    split
    · exact trivial
    · rename_i hnone
      exact ⟨name, rfl, List.idxOf?_eq_none_iff.1 hnone, rfl⟩

theorem ends_tiers (m : Mapping) (source target : Option Text) :
    Ends (fun _ => True) (fun f => m.isTiered = true ∧ m.IsUnknownTier source target f)
      (m.tiers source target) := by
  unfold tiers
  split
  · rename_i htiered
    apply ((ends_tierIndex m source 0).mono (fun _ h => h) ?_).bind
    · intro s _
      apply ((ends_tierIndex m target _).mono (fun _ h => h) ?_).bind
      · exact fun _ _ => trivial
      · rintro f ⟨name, hname, hrest⟩
        exact ⟨htiered, name, .inr hname, hrest⟩
    · rintro f ⟨name, hname, hrest⟩
      exact ⟨htiered, name, .inl hname, hrest⟩
  · exact trivial

end Mapping

end Renaming
