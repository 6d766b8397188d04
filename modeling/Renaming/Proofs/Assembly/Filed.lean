import Renaming.FileTree.Remap
import Renaming.Proofs.Assembly.Declaration
import Renaming.Proofs.Assembly.Retype

/-!
# `Proofs/Assembly/Filed` — the class that a renamed text declares

A file is placed by the new name of the class that its text declared, so the renamed text has to
declare that class. The declaration itself is renamed by the last pass to what the look-up answers
(`Declares.exists_text`), and a line in front of it that did not begin with `.class` does not
do so now.

What is left is a line feed in a new name. It cuts a line in two, and what it cuts off may read as
anything, a declaration too. Renaming does not look into the names it is given, so the statement
says what becomes of them: the text declares what these cut-off lines declare, if anything, and else
the class it is filed under (`findClassName_rename`).
-/

set_option autoImplicit false

namespace Renaming

/-- A blank does not belong to a word. -/
theorem Text.isWord_of_isBlank {c : Char} (h : isBlank c = true) : isWord c = false := by
  have hall : ∀ n ∈ blankRanges.flatMap fun r => List.range' r.1 (r.2 + 1 - r.1),
      isWord (Char.ofNat n) = false := by decide +kernel
  have hmem : c.toNat ∈ blankRanges.flatMap fun r => List.range' r.1 (r.2 + 1 - r.1) := by
    obtain ⟨r, hr, hin⟩ := List.any_eq_true.1 h
    rw [Bool.and_eq_true, decide_eq_true_eq, decide_eq_true_eq] at hin
    exact List.mem_flatMap.2 ⟨r, hr, List.mem_range'_1.2 (by omega)⟩
  have hword := hall _ hmem
  rwa [Char.ofNat_toNat] at hword

namespace Assembly

open Line

/-! ## Declarations -/

/-- What stands between the directive and the name: flags and blanks, a blank first and last. -/
structure IsFlags (t : Text) : Prop where
  first : ∃ c ∈ t.head?, Text.isBlank c = true
  last : ∃ c ∈ t.getLast?, Text.isBlank c = true
  all : ∀ c ∈ t, c ∉ ['L', '"', '#', '>']

instance (t : Text) : Decidable (IsFlags t) :=
  -- only the characters of the text are tried, not all there are
  have : Decidable (∀ c ∈ t, c ∉ ['L', '"', '#', '>']) := List.decidableBAll _ t
  decidable_of_iff (t.head?.any Text.isBlank = true ∧ t.getLast?.any Text.isBlank = true ∧
      ∀ c ∈ t, c ∉ ['L', '"', '#', '>'])
    ⟨fun h => ⟨(Option.any_eq_true _ _).1 h.1, (Option.any_eq_true _ _).1 h.2.1, h.2.2⟩,
      fun h => ⟨(Option.any_eq_true _ _).2 h.first, (Option.any_eq_true _ _).2 h.last, h.all⟩⟩

/-- The code in front of the type in a declaration. -/
def declarationLead (indent flags : Text) : Text := indent ++ (".class".toList ++ flags)

/-- Code that declares a class and holds nothing else. -/
structure Declares (code name : Text) : Prop where
  shape : ∃ indent flags rest,
    code = declarationLead indent flags ++ 'L' :: (name ++ ';' :: rest) ∧
      (∀ c ∈ indent, Text.isBlank c = true) ∧ IsFlags flags ∧ ∀ c ∈ rest, Text.isBlank c = true
  isName : IsName isClassChar name
  sharp : '#' ∉ name

/-- The first type behind the directive is found, whatever flags stand in front of it. -/
theorem declaredIn?_eq_some {flags name rest : Text} {previous : Char}
    (hflags : ∀ c ∈ flags, c ≠ 'L' ∧ c ≠ '"') (hname : IsName isDeclaredChar name)
    (hlast : Text.isWord (flags.getLast?.getD previous) = false) :
    declaredIn? previous (flags ++ 'L' :: (name ++ ';' :: rest)) = some name := by
  induction flags generalizing previous with
  | nil =>
    have hword : Text.isWord previous = false := hlast
    have hrun : run? isDeclaredChar (name ++ ';' :: rest) = some (name, ';' :: rest) :=
      run?_eq_some_iff.2 ⟨rfl, hname, stops_cons.2 (by decide)⟩
    rw [List.nil_append, declaredIn?, if_pos ⟨rfl, hword⟩, hrun]
    rfl
  | cons c flags ih =>
    obtain ⟨hL, hquote⟩ := hflags c List.mem_cons_self
    rw [List.cons_append, declaredIn?, if_neg fun h => hL h.1]
    dsimp only
    rw [if_neg hquote]
    refine ih (fun d hd => hflags d (List.mem_cons_of_mem _ hd)) ?_
    rwa [List.getLast?_cons, Option.getD_some] at hlast

section Declares

variable {code name : Text}

theorem isDeclaredChar_of_isClassChar {c : Char} (h : isClassChar c = true) :
    isDeclaredChar c = true := by
  simp [isClassChar, isOwnerChar, isDeclaredChar, isBlankOr] at h ⊢
  tauto

theorem Declares.declaration? (h : Declares code name) : declaration? code = some name := by
  obtain ⟨⟨indent, flags, rest, rfl, hindent, hflags, -⟩, hname, -⟩ := h
  obtain ⟨b, hb, hblank⟩ := hflags.first
  obtain ⟨e, he, hend⟩ := hflags.last
  obtain ⟨tail, rfl⟩ : ∃ tail, flags = b :: tail := by
    cases flags with
    | nil => cases hb
    | cons c tail => exact ⟨tail, by rw [Option.some.inj hb]⟩
  have hafter : after? ".class".toList ((declarationLead indent (b :: tail) ++
      'L' :: (name ++ ';' :: rest)).dropWhile Text.isBlank) =
        some ((b :: tail) ++ 'L' :: (name ++ ';' :: rest)) := by
    have hdrop : (declarationLead indent (b :: tail) ++ 'L' :: (name ++ ';' :: rest)).dropWhile
        Text.isBlank = ".class".toList ++ ((b :: tail) ++ 'L' :: (name ++ ';' :: rest)) := by
      rw [declarationLead, List.append_assoc, dropWhile_of_stops hindent, List.append_assoc]
      exact stops_cons.2 (by decide)
    rw [hdrop, after?_eq_some_iff]
  have hboundary : ((b :: tail) ++ 'L' :: (name ++ ';' :: rest)).head?.any Text.isWord = false :=
    Text.isWord_of_isBlank hblank
  rw [Assembly.declaration?, hafter]
  show (if _ then none else declaredIn? 's' _) = _
  rw [hboundary, if_neg Bool.false_ne_true]
  apply declaredIn?_eq_some
  · intro c hc
    have := hflags.all c hc
    simp only [List.mem_cons, not_or] at this
    exact ⟨this.1, this.2.1⟩
  · exact ⟨hname.ne_nil, fun c hc => isDeclaredChar_of_isClassChar (hname.all c hc)⟩
  · rw [Option.mem_def.1 he, Option.getD_some]
    exact Text.isWord_of_isBlank hend

/-- Blanks may follow. -/
theorem Declares.append (h : Declares code name) {blanks : Text}
    (hblanks : ∀ c ∈ blanks, Text.isBlank c = true) : Declares (code ++ blanks) name := by
  obtain ⟨⟨indent, flags, rest, rfl, hindent, hflags, hrest⟩, hname, hsharp⟩ := h
  refine ⟨⟨indent, flags, rest ++ blanks, by simp, hindent, hflags, fun c hc => ?_⟩, hname, hsharp⟩
  rcases List.mem_append.1 hc with hc | hc
  · exact hrest c hc
  · exact hblanks c hc

/-- Blanks at the end may be left out. -/
theorem Declares.of_append {blanks : Text} (h : Declares (code ++ blanks) name)
    (hblanks : ∀ c ∈ blanks, Text.isBlank c = true) : Declares code name := by
  obtain ⟨⟨indent, flags, rest, hcode, hindent, hflags, hrest⟩, hname, hsharp⟩ := h
  have hcode' : code ++ blanks =
      (declarationLead indent flags ++ 'L' :: name ++ [';']) ++ rest := by
    rw [hcode]
    simp
  refine ⟨?_, hname, hsharp⟩
  rcases List.append_eq_append_iff.1 hcode' with ⟨v, hv, hv'⟩ | ⟨v, rfl, rfl⟩
  · -- the semicolon is no blank, so the blanks begin behind it
    rcases List.eq_nil_or_concat v with rfl | ⟨v, d, rfl⟩
    · refine ⟨indent, flags, [], ?_, hindent, hflags, by simp⟩
      rw [← List.append_nil code, ← hv]
      simp
    · rw [List.concat_eq_append, ← List.append_assoc] at hv
      obtain ⟨-, hd⟩ := List.append_inj' hv rfl
      obtain rfl := (List.cons.inj hd).1
      have hsemi := hblanks ';' (by rw [hv']; simp)
      exact absurd hsemi (by decide)
  · refine ⟨indent, flags, v, by simp, hindent, hflags, fun c hc => ?_⟩
    exact hrest c (List.mem_append_left _ hc)

/-- The code holds neither a quote nor a number sign nor the tip of an arrow. -/
theorem Declares.notMem (h : Declares code name) : ∀ c ∈ ['"', '#', '>'], c ∉ code := by
  obtain ⟨⟨indent, flags, rest, rfl, hindent, hflags, hrest⟩, hname, hsharp⟩ := h
  have hblank : ∀ c ∈ ['"', '#', '>'], Text.isBlank c = false := by
    rw [List.forall_mem_cons, List.forall_mem_cons, List.forall_mem_singleton]
    decide
  have hclass : ∀ c ∈ ['"', '#', '>'], c ≠ '#' → isClassChar c = false := by
    rw [List.forall_mem_cons, List.forall_mem_cons, List.forall_mem_singleton]
    decide
  have hmark : ∀ c ∈ ['"', '#', '>'], c ∉ ".class".toList ∧ c ≠ 'L' ∧ c ≠ ';' := by
    rw [List.forall_mem_cons, List.forall_mem_cons, List.forall_mem_singleton]
    decide
  intro c hc hmem
  simp only [declarationLead, List.mem_append, List.mem_cons] at hmem
  rcases hmem with (h | h | h) | h | h | h | h
  · exact absurd (hindent c h) (by rw [hblank c hc]; decide)
  · exact (hmark c hc).1 h
  · exact hflags.all c h (List.mem_cons_of_mem _ hc)
  · exact (hmark c hc).2.1 h
  · by_cases hsign : c = '#'
    · exact hsharp (hsign ▸ h)
    · exact absurd (hname.all c h) (by rw [hclass c hc hsign]; decide)
  · exact (hmark c hc).2.2 h
  · exact absurd (hrest c h) (by rw [hblank c hc]; decide)

end Declares

/-! ## The declaration is renamed -/

/-- Characters at which no shape begins are passed over. -/
theorem scanFrom_append_of_notMem {α : Type} {find : Text → Option (α × Nat)}
    (hfind : ∀ c r, c ≠ 'L' → find (c :: r) = none) {w : Text} (hw : 'L' ∉ w) (t : Text)
    (i : Nat) : scanFrom find 0 i (w ++ t) = scanFrom find 0 (i + w.length) t := by
  induction w generalizing i with
  | nil => rfl
  | cons c w ih =>
    rw [List.mem_cons, not_or] at hw
    rw [List.cons_append, scanFrom_none (hfind c _ (Ne.symm hw.1)), ih hw.2, List.length_cons]
    congr 1
    omega

/-- A reference has an arrow in it. -/
theorem scan_reference_eq_nil {t : Text} (h : '>' ∉ t) : scan reference? t = [] := by
  apply List.eq_nil_iff_forall_not_mem.2
  rintro ⟨i, r, n⟩ hmem
  obtain ⟨-, hfind⟩ := find_of_mem_scan hmem
  obtain ⟨signature, rest, hdrop, -⟩ := reference?_eq_some_iff.1 hfind
  refine h (List.mem_of_mem_drop (i := i) ?_)
  rw [hdrop]
  simp [Reference.text]

theorem afterDirective?_eq_none {directive indent t : Text}
    (hindent : ∀ c ∈ indent, Text.isBlank c = true)
    (hdirective : after? directive (".class".toList ++ t) = none) :
    afterDirective? directive (indent ++ (".class".toList ++ t)) = none := by
  have hstop : Stops Text.isBlank (".class".toList ++ t) := stops_cons.2 (by decide)
  simp only [afterDirective?, takeWhile_of_stops hindent hstop, List.drop_left, hdirective,
    Option.bind_eq_bind, Option.bind_none]

section Renaming

variable {t : Table} {code line name : Text}

/-- The first three passes leave a declaration alone. -/
theorem Declares.renameLine_eq (h : Declares code name) (owner : Text) :
    renameLine t owner code = typePass t (.ofText code) := by
  have hreference : referencePass t (.ofText code) = .ofText code := by
    rw [referencePass, referencePassEdits, text_ofText,
      scan_reference_eq_nil (h.notMem '>' (by decide))]
    rfl
  obtain ⟨⟨indent, flags, rest, rfl, hindent, -⟩, -, -⟩ := h
  have hfield : fieldDefinition? (declarationLead indent flags ++ 'L' :: (name ++ ';' :: rest)) =
      none := by
    rw [declarationLead, List.append_assoc, List.append_assoc, fieldDefinition?,
      afterDirective?_eq_none hindent rfl]
    rfl
  have hmethod : methodDefinition? (declarationLead indent flags ++ 'L' :: (name ++ ';' :: rest)) =
      none := by
    rw [declarationLead, List.append_assoc, List.append_assoc, methodDefinition?,
      afterDirective?_eq_none hindent rfl]
    rfl
  rw [renameLine, methodPass_fieldPass_of_none hfield hmethod, hreference]

theorem notMem_declarationLead {indent flags : Text} (hindent : ∀ c ∈ indent, Text.isBlank c = true)
    (hflags : IsFlags flags) : 'L' ∉ declarationLead indent flags := by
  intro h
  simp only [declarationLead, List.mem_append] at h
  rcases h with h | h | h
  · exact absurd (hindent _ h) (by decide)
  · exact absurd h (by decide)
  · exact hflags.all _ h List.mem_cons_self

/-- The last pass finds the one type in a declaration. -/
theorem scan_type_declaration {lead rest : Text} (hlead : 'L' ∉ lead)
    (hname : IsName isClassChar name) (hrest : ';' ∉ rest) :
    scan type? (lead ++ 'L' :: (name ++ ';' :: rest)) = [(lead.length, name, name.length + 2)] := by
  rw [scan, scanFrom_append_of_notMem (fun c r hc => type?_eq_none_of_ne hc r) hlead, Nat.zero_add,
    scanFrom_type_found hname, scanFrom_type_eq_nil hrest]

/-- The last pass over a line without quotes that holds one type. -/
theorem text_typePass_of_scan {lead rest : Text}
    (hq : '"' ∉ lead ++ 'L' :: (name ++ ';' :: rest))
    (hscan : scan type? (lead ++ 'L' :: (name ++ ';' :: rest)) =
      [(lead.length, name, name.length + 2)]) :
    (typePass t (.ofText (lead ++ 'L' :: (name ++ ';' :: rest)))).text =
      lead ++ 'L' :: (t.mapClass name ++ ';' :: rest) := by
  have hpieces : (ofText (lead ++ 'L' :: (name ++ ';' :: rest))).pieces =
      lead.map .kept ++ .kept 'L' :: (name.map .kept ++ (';' :: rest).map .kept) := by
    simp [ofText]
  have hfree : (ofText (lead ++ 'L' :: (name ++ ';' :: rest))).isFree
      ⟨lead.length, lead.length + (name.length + 2)⟩ = true := by
    have hkept := (tells_isFree (by rw [text_ofText]; exact hq)).kept
      (lead.map .kept) ('L' :: (name ++ [';'])) (rest.map .kept) (by rw [hpieces]; simp)
    rw [textOf_map_kept] at hkept
    rw [← hkept]
    simp
  rw [typePass, typePassEdits, text_ofText, hscan, List.filterMap_cons, List.filterMap_nil]
  dsimp only
  rw [hfree, Bool.true_and]
  by_cases heq : t.mapClass name = name
  · rw [heq, bne_self_eq_false]
    exact text_ofText _
  · rw [if_pos (bne_iff_ne.2 heq)]
    have hplace : lead.length + 1 = 0 + (textOf (lead.map .kept)).length + 1 := by
      rw [textOf_map_kept, Nat.zero_add]
    show textOf (editFrom 0 _ _) = _
    rw [hpieces, editFrom_editAt hplace]
    simp [editFrom]

/-- **The declaration is renamed and nothing else in its line.** -/
theorem Declares.exists_text (h : Declares code name) (owner : Text) :
    ∃ indent flags rest, code = declarationLead indent flags ++ 'L' :: (name ++ ';' :: rest) ∧
      (∀ c ∈ indent, Text.isBlank c = true) ∧ IsFlags flags ∧ (∀ c ∈ rest, Text.isBlank c = true) ∧
      (renameLine t owner code).text =
        declarationLead indent flags ++ 'L' :: (t.mapClass name ++ ';' :: rest) := by
  have hquote : '"' ∉ code := h.notMem '"' (by decide)
  rw [h.renameLine_eq owner]
  obtain ⟨⟨indent, flags, rest, rfl, hindent, hflags, hrest⟩, hname, -⟩ := h
  have hsemi : ';' ∉ rest := fun hmem => absurd (hrest _ hmem) (by decide)
  have hscan := scan_type_declaration (notMem_declarationLead hindent hflags) hname hsemi
  exact ⟨indent, flags, rest, rfl, hindent, hflags, hrest, text_typePass_of_scan hquote hscan⟩

variable (hname : IsName isClassChar (t.mapClass name))

include hname

/-- The line of the declaration remains one line. -/
theorem notMem_renamedLine (h : Declares (lineParts line).code name) (hline : '\n' ∉ line)
    (owner : Text) : '\n' ∉ (renamedLine t owner line).1 := by
  obtain ⟨indent, flags, rest, hcode, -, -, -, htext⟩ := h.exists_text (t := t) owner
  have hfeed : '\n' ∉ t.mapClass name := fun hmem => absurd (hname.all _ hmem) (by decide)
  rw [← append_lineParts line, hcode] at hline
  rw [renamedLine_fst, htext]
  simp only [List.mem_append, List.mem_cons, not_or] at hline ⊢
  obtain ⟨⟨⟨hlead, hL, -, hsemi, hrest⟩, hcomment⟩, hending⟩ := hline
  exact ⟨⟨⟨hlead, hL, hfeed, hsemi, hrest⟩, hcomment⟩, hending⟩

variable (hsharp : '#' ∉ t.mapClass name)

include hsharp

theorem Declares.renameLine (h : Declares code name) (owner : Text) :
    Declares (renameLine t owner code).text (t.mapClass name) := by
  obtain ⟨indent, flags, rest, -, hindent, hflags, hrest, htext⟩ := h.exists_text (t := t) owner
  exact ⟨⟨indent, flags, rest, htext, hindent, hflags, hrest⟩, hname, hsharp⟩

/-- The line of the declaration declares the new name. -/
theorem declares_renamedLine (h : Declares (lineParts line).code name) (owner : Text) :
    Declares (splitComment (renamedLine t owner line).1).1 (t.mapClass name) := by
  have hending := (ending_lineParts line).imp_right And.left
  have hnew := h.renameLine hname hsharp owner
  have hquote := hnew.notMem '"' (by decide)
  have hcomment := splitFrom_lineParts line
  rw [Zone.after_code (h.notMem '"' (by decide)), ← Zone.after_code hquote] at hcomment
  obtain ⟨blanks, hblanks, hsplit⟩ := splitComment_parts
    ((uncommented_code_iff hquote).2 (hnew.notMem '#' (by decide))) hcomment hending
  rw [renamedLine_fst, hsplit]
  exact hnew.append hblanks

end Renaming

/-- A carriage return at the end makes no difference. -/
theorem Declares.lineParts {line name : Text} (h : Declares (splitComment line).1 name) :
    Declares (lineParts line).code name := by
  obtain ⟨blanks, hblanks, hsplit⟩ := splitComment_parts (uncommented_lineParts line)
    (splitFrom_lineParts line) ((ending_lineParts line).imp_right And.left)
  rw [append_lineParts] at hsplit
  rw [hsplit] at h
  exact h.of_append hblanks

/-! ## Lines in front of the declaration -/

/-- What line feeds in new names cut off from renamed lines. -/
def cutOff (t : Table) (owner : Text) (lines : List Text) : List Text :=
  lines.flatMap fun line => (sourceLines (renamedLine t owner line).1).tail

/-- Nothing is cut off when no name has a line feed in it. -/
theorem cutOff_eq_nil {t : Table} (hfeed : t.FreeOf '\n') (owner : Text) {lines : List Text}
    (hlines : ∀ line ∈ lines, '\n' ∉ line) : cutOff t owner lines = [] := by
  unfold cutOff
  rw [List.flatMap_eq_nil_iff]
  intro line hline
  have hone : '\n' ∉ (renamedLine t owner line).1 := by
    have hkept := hlines line hline
    rw [← append_lineParts line] at hkept
    rw [renamedLine_fst]
    simp only [List.mem_append, not_or] at hkept ⊢
    exact ⟨⟨(stands_renameLine t owner _).notMem_text hfeed hkept.1.1, hkept.1.2⟩, hkept.2⟩
  rw [sourceLines, Text.splitOn_of_notMem hone]
  rfl

/-- The first line of a text that does not begin with the directive declares nothing. -/
theorem findSome?_sourceLines {t : Text} (h : ¬ StartsDeclaration t) :
    (sourceLines t).findSome? (fun line => declaration? (splitComment line).1) =
      (sourceLines t).tail.findSome? fun line => declaration? (splitComment line).1 := by
  obtain ⟨w, ws, rest, hsplit, rfl⟩ := Text.exists_splitOn_eq_cons '\n' t
  have hnone : declaration? (splitComment w).1 = none := by
    apply declaration?_eq_none
    rw [startsDeclaration_splitComment]
    exact fun hw => h (hw.append rest)
  rw [sourceLines, hsplit, List.findSome?_cons, hnone]
  rfl

/-- The lines in front of the declaration declare what was cut off from them declares. -/
theorem findSome?_renamedLines (t : Table) (owner : Text) {lines : List Text}
    (h : ∀ line ∈ lines, ¬ StartsDeclaration (splitComment line).1) :
    (lines.flatMap fun line => sourceLines (renamedLine t owner line).1).findSome?
        (fun line => declaration? (splitComment line).1) =
      (cutOff t owner lines).findSome? fun line => declaration? (splitComment line).1 := by
  induction lines with
  | nil => rw [cutOff, List.flatMap_nil, List.flatMap_nil]
  | cons line lines ih =>
    have hfirst := h line List.mem_cons_self
    rw [startsDeclaration_splitComment, ← startsDeclaration_renamedLine t owner] at hfirst
    rw [cutOff, List.flatMap_cons, List.flatMap_cons, List.findSome?_append,
      List.findSome?_append, findSome?_sourceLines hfirst,
      ih fun line hmem => h line (List.mem_cons_of_mem _ hmem)]
    rfl

/-! ## The renamed text -/

/-- **The renamed text declares the class it is filed under**, for every table, unless a line feed
in a new name cuts another declaration off from a line in front of it. -/
theorem findClassName_rename {t : Table} {text line name : Text} {before behind : List Text}
    (htext : sourceLines text = before ++ line :: behind)
    (hbefore : ∀ l ∈ before, ¬ StartsDeclaration (splitComment l).1)
    (hline : Declares (splitComment line).1 name)
    (hname : IsName isClassChar (t.mapClass name)) (hsharp : '#' ∉ t.mapClass name) :
    findClassName text = some name ∧ (rename t text).newName = some (t.mapClass name) ∧
      findClassName (rename t text).text =
        ((cutOff t name before).findSome? fun l => declaration? (splitComment l).1).or
          (rename t text).newName ∧
      (t.FreeOf '\n' → findClassName (rename t text).text = (rename t text).newName) ∧
      ∀ (output : Path) (j : FileTree.Job), Text.ofUtf8? j.content = some text →
        (j.product t output).destination = FileTree.Job.destination output (t.mapClass name) ∧
          (j.product t output).content = Text.utf8 (rename t text).text := by
  have hdeclared : findClassName text = some name := by
    have hnone : before.findSome? (fun l => declaration? (splitComment l).1) = none :=
      List.findSome?_eq_none_iff.2 fun l hl => declaration?_eq_none (hbefore l hl)
    rw [findClassName, htext, List.findSome?_append, hnone, Option.none_or, List.findSome?_cons,
      hline.declaration?]
  have hnew : (rename t text).newName = some (t.mapClass name) := by simp only [rename, hdeclared]
  have hfeed : ∀ l ∈ before ++ line :: behind, '\n' ∉ l :=
    fun l hl => notMem_of_mem_sourceLines (htext ▸ hl)
  have hrenamed : findClassName (rename t text).text =
      ((cutOff t name before).findSome? fun l => declaration? (splitComment l).1).or
        (rename t text).newName := by
    have hone := notMem_renamedLine hname hline.lineParts (hfeed line (by simp)) name
    have hdeclares := declares_renamedLine hname hsharp hline.lineParts name
    rw [findClassName, sourceLines_rename hdeclared, htext, List.flatMap_append, List.flatMap_cons,
      List.findSome?_append, findSome?_renamedLines t name hbefore, sourceLines,
      Text.splitOn_of_notMem hone, List.singleton_append, List.findSome?_cons,
      hdeclares.declaration?, hnew]
  refine ⟨hdeclared, hnew, hrenamed, fun hfree => ?_, fun output j hj => ?_⟩
  · rw [hrenamed, cutOff_eq_nil hfree name fun l hl => hfeed l (List.mem_append_left _ hl)]
    rfl
  · simp only [FileTree.Job.product, hj, hnew]
    exact ⟨trivial, trivial⟩

/-- A nested class behind flags and in front of a comment, and a line in front of it in which a new
name has a line feed, but cuts no declaration off. -/
theorem findClassName_rename_nested :
    let t := (Table.empty.addClass "a/b".toList "c/D".toList .null).addClass "x".toList
      "\ny".toList .null
    let text := "# .class Lno;\n.super Lx;\n\t.class public inner-x La/b$I; # c\r\n.end".toList
    let before := ["# .class Lno;".toList, ".super Lx;".toList]
    let line := "\t.class public inner-x La/b$I; # c\r".toList
    sourceLines text = before ++ line :: [".end".toList] ∧
      (∀ l ∈ before, ¬ StartsDeclaration (splitComment l).1) ∧
      Declares (splitComment line).1 "a/b$I".toList ∧
      IsName isClassChar (t.mapClass "a/b$I".toList) ∧ '#' ∉ t.mapClass "a/b$I".toList ∧
      cutOff t "a/b$I".toList before = ["y;".toList] ∧
      (rename t text).newName = some "c/D$I".toList ∧
      findClassName (rename t text).text = some "c/D$I".toList := by
  intro t text before line
  have hclass : t.mapClass "a/b$I".toList = "c/D$I".toList := by decide +kernel
  have hline : Declares (splitComment line).1 "a/b$I".toList := by
    refine ⟨⟨"\t".toList, " public inner-x ".toList, " ".toList, by decide +kernel, ?_, by decide,
      ?_⟩, by decide, by decide⟩ <;> exact List.all_eq_true.1 (by decide)
  have hname : IsName isClassChar (t.mapClass "a/b$I".toList) := by
    rw [hclass]
    decide
  have hsharp : '#' ∉ t.mapClass "a/b$I".toList := by
    rw [hclass]
    decide
  have htext : sourceLines text = before ++ line :: [".end".toList] := by decide +kernel
  have hbefore : ∀ l ∈ before, ¬ StartsDeclaration (splitComment l).1 := by decide +kernel
  have hcut : cutOff t "a/b$I".toList before = ["y;".toList] := by decide +kernel
  obtain ⟨-, hnew, hrenamed, -⟩ := findClassName_rename htext hbefore hline hname hsharp
  rw [hclass] at hnew
  rw [hcut, hnew] at hrenamed
  exact ⟨htext, hbefore, hline, hname, hsharp, hcut, hnew, hrenamed⟩

/-- A new name with a declaration behind a line feed: the text is filed under one class and declares
another. -/
theorem findClassName_rename_ne :
    let t := (Table.empty.addClass "a".toList "b".toList .null).addClass "x".toList
      "\n.class Lc;".toList .null
    let text := ".super Lx;\n.class La;".toList
    sourceLines text = [".super Lx;".toList] ++ ".class La;".toList :: [] ∧
      ¬ StartsDeclaration (splitComment ".super Lx;".toList).1 ∧
      Declares (splitComment ".class La;".toList).1 "a".toList ∧
      IsName isClassChar (t.mapClass "a".toList) ∧ '#' ∉ t.mapClass "a".toList ∧
      (rename t text).newName = some "b".toList ∧
      findClassName (rename t text).text = some "c".toList := by
  intro t text
  have hclass : t.mapClass "a".toList = "b".toList := by decide +kernel
  have hline : Declares (splitComment ".class La;".toList).1 "a".toList :=
    ⟨⟨[], " ".toList, [], by decide +kernel, List.forall_mem_nil _, by decide,
      List.forall_mem_nil _⟩, by decide, by decide⟩
  refine ⟨by decide +kernel, by decide +kernel, hline, ?_, ?_, by decide +kernel, by decide +kernel⟩
  · rw [hclass]
    decide
  · rw [hclass]
    decide

end Assembly

end Renaming
