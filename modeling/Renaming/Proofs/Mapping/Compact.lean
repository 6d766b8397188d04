import Renaming.Mapping.Load
import Renaming.Proofs.Ending
import Renaming.Proofs.Mapping.Notation
import Renaming.Proofs.Mapping.Owner

/-!
# `Proofs/Mapping/Compact` — what is taken for a compact table is one

A text without a file name is taken for a compact table when nothing on its first line speaks for
another notation and no line speaks against this one. The detector looks at the shape of names and
at the parentheses of descriptors, and the reader counts columns. Still the detector is right:

> a text that is taken for a compact table can be read as one.

A row of two names means the same at the top of a TSRG file, so that a table of such rows could be
taken for either. It does not matter: both readers do the same with these rows
(`mapping_tsrgStep`), and what a mapping says does not depend on the notation that it was read from
(`csrgStep_inFormat`).
-/

set_option autoImplicit false

namespace Renaming

namespace Format

/-! ## What the detector has seen -/

theorem of_ofLines?_csrg {suffix first : Text} {lines : List Text}
    (h : ofLines? suffix first lines = some .csrg) :
    lines.any Mapping.isIndented = false ∧ isCompactTable lines = true := by
  unfold ofLines? at h
  -- every other notation that is answered before is not this one
  split_ifs at h with _ _ _ _ _ _ _ hindented htable
  all_goals first
    | cases h; done
    | exact ⟨Bool.eq_false_iff.2 hindented, htable⟩

theorem ofLines?_of_detect {text : Text} {f : Format} (h : detect none text = .ok f) :
    ∃ first, ofLines? [] first (text.contentLines.map (·.2)) = some f := by
  have hsuffix : ofSuffix? [] = none := by decide
  simp only [detect, Option.map_none, Option.getD_none, hsuffix] at h
  cases hlines : text.contentLines.map (·.2) with
  | nil =>
    rw [hlines] at h
    split_ifs at h with htsrg htiny
    · exact absurd htsrg (by decide)
    · exact absurd htiny (by decide)
  | cons first rest =>
    rw [hlines] at h
    refine ⟨first, ?_⟩
    cases hfound : ofLines? [] first (first :: rest) with
    | none => simp [hfound] at h
    | some g => simpa [hfound] using h

/-- No line of what is taken for a compact table is indented, and each is a row of it. -/
theorem of_detect_csrg {text : Text} (h : detect none text = .ok .csrg) :
    ∀ p ∈ text.contentLines, Mapping.isIndented p.2 = false ∧ (compactRow? p.2).isSome := by
  obtain ⟨first, hfirst⟩ := ofLines?_of_detect h
  obtain ⟨hindented, htable⟩ := of_ofLines?_csrg hfirst
  intro p hp
  have hmem : p.2 ∈ text.contentLines.map (·.2) := List.mem_map_of_mem hp
  constructor
  · simpa using List.any_eq_false.1 hindented p.2 hmem
  · cases hshown : (text.contentLines.map (·.2)).mapM compactRow? with
    | none => simp [isCompactTable, hshown] at htable
    | some shown =>
      have hrow := exists_mapM_eq_some_iff.1 ⟨shown, hshown⟩ p.2 hmem
      exact Option.isSome_iff_exists.2 hrow

end Format

namespace Mapping

/-! ## The rows of a compact table -/

/-- A row that the detector accepts is accepted by the reader. -/
theorem ends_csrgStep_of_row {m : Mapping} (hm : m.format = .csrg) {p : Nat × Text}
    (hrow : (Format.compactRow? p.2).isSome) :
    Ends (·.format = .csrg) (fun _ => False) (csrgStep m p) := by
  obtain ⟨n, line⟩ := p
  have hword : ∀ w ∈ Text.fields line, w ≠ [] := fun w hw => (Text.of_mem_fields hw).1
  simp only [Format.compactRow?] at hrow
  split at hrow
  · rename_i source target hfields
    by_cases hslash : Text.endsWith ['/'] source = true
    · simp only [csrgStep, hfields, if_pos hslash]
      exact hm
    · have hsource : source ≠ [] := hword source (by simp [hfields])
      simp only [csrgStep, hfields, if_neg hslash, twoNames, declare_eq_enter m hsource]
      exact (format_onOwner m _ _).trans hm
  · rename_i owner source target hfields
    simp only [csrgStep, hfields]
    exact (format_onOwner m _ _).trans hm
  · rename_i owner source descriptor target hfields
    split_ifs at hrow with hshape
    · have hparen : Text.startsWith ['('] descriptor = true := by
        obtain ⟨rest, rfl⟩ := List.head?_eq_some_iff.1 hshape.1
        simp [Text.startsWith]
      simp only [csrgStep, hfields, hparen, if_true]
      exact (format_onOwner m _ _).trans hm
    · cases hrow
  · cases hrow

/-! ## The same rows in TSRG -/

/-- The mapping as it might have been read from another notation. -/
def inFormat (m : Mapping) (format : Format) : Mapping := m.recast format m.packages

theorem onOwner_inFormat (m : Mapping) (format : Format) (first : Text) (f : ClassRow → ClassRow) :
    (m.inFormat format).onOwner first f = (m.onOwner first f).inFormat format := by
  rw [inFormat, inFormat, onOwner_recast, packages_onOwner]

theorem declare_inFormat (m : Mapping) (format : Format) (names : List (Option Text))
    (comment : Option Text) :
    (m.inFormat format).declare names comment =
      (fun r => (r.1.inFormat format, r.2)) <$> m.declare names comment := by
  cases names with
  | nil => rfl
  | cons first others =>
    simp only [declare]
    split
    · rfl
    · rw [onOwner_inFormat]
      rfl

/-- A row says the same whatever notation the mapping was read from. -/
theorem csrgStep_inFormat (m : Mapping) (format : Format) (p : Nat × Text) :
    csrgStep (m.inFormat format) p = (·.inFormat format) <$> csrgStep m p := by
  obtain ⟨n, line⟩ := p
  simp only [csrgStep]
  split
  · split
    · rfl
    · rw [declare_inFormat]
      cases m.declare _ none <;> rfl
  · exact congrArg Except.ok (onOwner_inFormat m format _ _)
  · split
    · exact congrArg Except.ok (onOwner_inFormat m format _ _)
    · rfl
  · rfl

/-- A row of two names at the top of a TSRG file is a row of a compact table. -/
theorem mapping_tsrgStep (s : Reading) {p : Nat × Text} (htop : isIndented p.2 = false)
    (htwo : (Text.fields p.2).length = 2) :
    (·.mapping) <$> tsrgStep s p = csrgStep s.mapping p := by
  obtain ⟨n, line⟩ := p
  obtain ⟨source, target, hfields⟩ := List.length_eq_two.1 htwo
  simp only at htop hfields
  simp only [tsrgStep, csrgStep, htop, hfields, Bool.false_eq_true, if_false]
  split
  · rfl
  · cases s.mapping.declare (twoNames source target) none <;> rfl

/-- A change of states that goes along with each row goes along with the reading. -/
theorem readLines_hom {σ τ : Type} {step : σ → Nat × Text → Except Fault σ}
    {step' : τ → Nat × Text → Except Fault τ} (f : σ → τ) {lines : List (Nat × Text)}
    (h : ∀ s, ∀ p ∈ lines, f <$> step s p = step' (f s) p) (s : σ) :
    f <$> readLines step s lines = readLines step' (f s) lines := by
  induction lines generalizing s with
  | nil => rfl
  | cons p lines ih =>
    have hfirst := h s p List.mem_cons_self
    simp only [readLines, List.foldlM_cons] at ih ⊢
    rw [← hfirst]
    cases step s p with
    | error e => rfl
    | ok s' => exact ih (fun s p hp => h s p (List.mem_cons_of_mem _ hp)) s'

theorem ofTsrg_eq {text : Text} (htop : ∀ p ∈ text.contentLines, isIndented p.2 = false)
    (htwo : ∀ p ∈ text.contentLines, (Text.fields p.2).length = 2) :
    ofTsrg text = (·.inFormat .tsrg) <$> ofCsrg text := by
  have hstart : ofNamespaces .tsrg twoTiers = (ofNamespaces .csrg twoTiers).inFormat .tsrg := rfl
  have hrows : ∀ s, ∀ p ∈ text.contentLines,
      Reading.mapping <$> tsrgStep s p = csrgStep s.mapping p :=
    fun s p hp => mapping_tsrgStep s (htop p hp) (htwo p hp)
  rw [ofTsrg, readLines_hom Reading.mapping hrows, ofCsrg,
    readLines_hom (·.inFormat .tsrg) fun m p _ => (csrgStep_inFormat m .tsrg p).symm, hstart]

/-! ## The table -/

/-- Without namespaces to choose from the table is the one between the only two tiers. -/
theorem table_of_not_isTiered {m : Mapping} (h : m.isTiered = false) (source target : Option Text) :
    m.table source target = .ok (m.tableBetween 0 1) := by
  simp only [table, tiers, h, Bool.false_eq_true, if_false, Bool.false_and]
  rfl

/-- **What is taken for a compact table can be read as one; and if each of its rows has two names,
it can be read as TSRG as well, and has the same table.** -/
theorem ofCsrg_of_detect {text : Text} (h : Format.detect none text = .ok .csrg) :
    ∃ m, ofCsrg text = .ok m ∧
      ((∀ p ∈ text.contentLines, (Text.fields p.2).length = 2) →
        ofTsrg text = .ok (m.inFormat .tsrg) ∧
          ∀ read step, ∃ t, Table.ofFormat read .csrg step text = .ok t ∧
            Table.ofFormat read .tsrg step text = .ok t) := by
  have hrows := Format.of_detect_csrg h
  have hends : Ends (·.format = .csrg) (fun _ => False) (ofCsrg text) :=
    Ends.foldlM rfl fun m hm p hp => ends_csrgStep_of_row hm (hrows p hp).2
  obtain ⟨m, hm, hformat⟩ | ⟨f, -, hf⟩ := hends.ok_or_error
  · refine ⟨m, hm, fun htwo => ?_⟩
    have htsrg : ofTsrg text = .ok (m.inFormat .tsrg) := by
      rw [ofTsrg_eq (fun p hp => (hrows p hp).1) htwo, hm]
      rfl
    refine ⟨htsrg, fun read step => ⟨m.tableBetween 0 1, ?_, ?_⟩⟩
    · show (do (← ofCsrg text).table step.source step.target) = _
      rw [hm]
      exact table_of_not_isTiered (by simp [isTiered, hformat]) _ _
    · show (do (← ofTsrg text).table step.source step.target) = _
      rw [htsrg]
      exact table_of_not_isTiered (m := m.inFormat .tsrg) rfl step.source step.target
  · exact hf.elim

/-- A package and two classes that both notations read. -/
theorem ofCsrg_of_detect_twoNames :
    let text := "a/ x/\na/B x/C\na/B$D y/E\n".toList
    ∃ m t, ofCsrg text = .ok m ∧ ofTsrg text = .ok (m.inFormat .tsrg) ∧
      Table.ofFormat .refuses .csrg .default text = .ok t ∧
        Table.ofFormat .refuses .tsrg .default text = .ok t := by
  intro text
  obtain ⟨m, hcsrg, hsame⟩ := @ofCsrg_of_detect text (by decide +kernel)
  obtain ⟨htsrg, htable⟩ := hsame (by decide +kernel)
  obtain ⟨t, ht, ht'⟩ := htable .refuses .default
  exact ⟨m, t, hcsrg, htsrg, ht, ht'⟩

end Mapping

end Renaming
