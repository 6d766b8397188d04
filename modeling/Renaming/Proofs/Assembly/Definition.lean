import Renaming.Proofs.Assembly.Relink
import Renaming.Proofs.Assembly.Substitution

/-!
# `Proofs/Assembly/Definition` — a line behind the passes over definitions

The first two passes touch a line that defines a field or a method, and no other line. What they
leave behind has two parts (`Opened`): a front with the new name of the member, in which a scan
finds nothing before and after, and the rest, in which only classes were replaced, each by the name
it has everywhere.
-/

set_option autoImplicit false

namespace Renaming

namespace Table

/-- Every name that the table puts in place of another could be the name of a class. -/
def PlainTargets (t : Table) : Prop :=
  ∀ target, t.IsTarget target → target ≠ [] ∧ ∀ c ∈ target, Assembly.isClassChar c = true

instance (t : Table) : Decidable t.PlainTargets :=
  decidable_of_iff (∀ target ∈ t.targets, target ≠ [] ∧ target.all Assembly.isClassChar = true)
    (forall_congr' fun _ => imp_congr isTarget_iff.symm (and_congr_right' List.all_eq_true))

end Table

namespace Assembly

open Line

/-- Names of members without a semicolon. -/
def OpenNames (old new : Text) : Prop := ';' ∉ old ∧ ';' ∉ new

/-- The line is a front in which scans find nothing, and pieces in which only classes were
replaced. -/
structure Opened (T : Text → Text → Prop) (l : Line) (X Q : List Piece) (e : Context) : Prop where
  pieces : l.pieces = X ++ Q
  front : Seated T OpenNames .plain X .plain
  rest : Seated T (fun _ _ => False) .plain Q e
  /-- No reference begins in the front, neither now nor at first. -/
  skip : ∀ v, scanFrom reference? 0 0 (textOf X ++ v) = scanFrom reference? 0 (textOf X).length v
  mentions : ∀ v, mentions (sourceOf X ++ v) = mentions v

section Lines

variable {t : Table} {T : Text → Text → Prop}

theorem opened_ofText (code : Text) :
    Opened T (.ofText code) [] (code.map .kept) (Context.plain.after code) :=
  ⟨rfl, .nil _, seated_map_kept .plain code, fun _ => rfl, fun _ => rfl⟩

/-- Behind the name of a definition: `tail` is what follows the mark behind the name. -/
theorem pieces_edit_definition {lead name tail new : Text} {c x : Char} {es : List Edit}
    (hes : ∀ e ∈ es, (lead ++ c :: (name ++ [x])).length < e.span.start) :
    ((ofText (lead ++ c :: (name ++ x :: tail))).edit
      (editAt (lead ++ [c]).length name.length new :: es)).pieces =
        (lead.map .kept ++ [Piece.kept c, .replaced name new, .kept x]) ++
          editFrom (lead ++ c :: (name ++ [x])).length es (tail.map .kept) := by
  have hps : (ofText (lead ++ c :: (name ++ x :: tail))).pieces =
      lead.map .kept ++ Piece.kept c :: (name.map .kept ++ ([Piece.kept x] ++ tail.map .kept)) := by
    simp [ofText]
  have hplace : (lead ++ [c]).length = 0 + (textOf (lead.map .kept)).length + 1 := by
    rw [textOf_map_kept, Nat.zero_add, List.length_append, List.length_singleton]
  have hstop : (lead ++ [c]).length + name.length + (textOf [Piece.kept x]).length =
      (lead ++ c :: (name ++ [x])).length := by
    simp only [textOf_kept, textOf_nil, List.length_append, List.length_cons, List.length_nil]
    omega
  have hrest := @editFrom_append ((lead ++ [c]).length + name.length) es [Piece.kept x]
    (fun e he => by rw [hstop]; exact hes e he) (tail.map .kept)
  rw [hstop] at hrest
  show editFrom 0 _ (ofText (lead ++ c :: (name ++ x :: tail))).pieces = _
  rw [hps, editFrom_editAt hplace, hrest]
  simp

theorem notMem_definitionLead {indent directive gap : Text} {c : Char}
    (hindent : ∀ d ∈ indent, Text.isBlank d = true) (hdirective : ';' ∉ directive)
    (hlead : IsLead gap c) : ';' ∉ definitionLead indent directive gap c := by
  intro h
  simp only [definitionLead, List.mem_append, List.mem_singleton] at h
  rcases h with h | h | h | h
  · exact absurd (hindent _ h) (by decide)
  · exact hdirective h
  · rcases hlead.gap _ h with h | h | h
    · exact absurd h (by decide)
    · exact absurd h (by decide)
    · exact absurd h (by decide)
  · exact absurd (h ▸ hlead.blank) (by decide)

/-- The front of a definition. -/
theorem opened_definition {l : Line} {lead name new : Text} {c x : Char} {Q : List Piece}
    {e : Context} (hlead : ';' ∉ lead ++ [c]) (hc : Text.isBlank c = true)
    (hnames : OpenNames name new) (hx : x = '(' ∨ x = ':')
    (hpieces : l.pieces = (lead.map .kept ++ [Piece.kept c, .replaced name new, .kept x]) ++ Q)
    (hQ : Seated T (fun _ _ => False) .plain Q e) :
    Opened T l (lead.map .kept ++ [Piece.kept c, .replaced name new, .kept x]) Q e := by
  have hclass : isClassChar c = false := by
    simp [isClassChar, isOwnerChar, isBlankOr, hc]
  have howner : isOwnerChar x = false ∧ x ≠ ';' := by rcases hx with rfl | rfl <;> decide
  have quiet : ∀ {w : Text}, ';' ∉ w → ';' ∉ lead ++ c :: w := by
    intro w hw h
    rw [List.append_cons] at h
    rcases List.mem_append.1 h with h | h
    · exact hlead h
    · exact hw h
  refine ⟨hpieces, ?_, hQ, fun v => ?_, fun v => ?_⟩
  · refine (seated_map_kept .plain lead).append (.kept ?_)
    have htip : Context.behind c = .tip := by simp [Context.behind, hc]
    rw [Context.next_of_not_isClassChar hclass, htip]
    exact .ofMember hnames hx (.nil _)
  · have h := scanFrom_reference_quiet (quiet hnames.2) howner.1 howner.2 0 v
    simpa [Nat.add_assoc] using h
  · have h := scanFrom_reference_quiet (quiet hnames.1) howner.1 howner.2 0 v
    have := @mentions_of_skip (lead ++ c :: (name ++ [x])) v
    simp only [List.cons_append, List.append_assoc, List.nil_append, List.length_cons,
      List.length_append, List.length_nil] at this h
    simp only [sourceOf_append, sourceOf_map_kept, sourceOf_kept, sourceOf_replaced, sourceOf_nil,
      List.cons_append, List.append_assoc, List.nil_append]
    refine this ?_
    rw [h]
    congr 1
    omega

/-! ## New names -/

theorem notMem_of_isTarget (ht : t.PlainTargets) {target : Text} (h : t.IsTarget target)
    {x : Char} (hx : isClassChar x = false) : x ∉ target :=
  fun hmem => by simpa [hx] using (ht target h).2 x hmem

theorem openNames_of_eq_or_isTarget (ht : t.PlainTargets) {old new : Text}
    (h : new = old ∨ t.IsTarget new) (hold : ';' ∉ old) : OpenNames old new :=
  ⟨hold, notMem_of_eq_or_isTarget (fun _ htarget => notMem_of_isTarget ht htarget (by decide))
    h hold⟩

/-- A class that goes by its own rename goes by a class name, the one it has everywhere. -/
theorem isName_mapClassExact (ht : t.PlainTargets) {w : Text} (h : t.mapClassExact w ≠ w) :
    IsName isClassChar (t.mapClassExact w) ∧ t.mapClassExact w = t.mapClass w := by
  refine ⟨?_, (Table.mapClass_of_mapClassExact_ne h).symm⟩
  unfold Table.mapClassExact at h ⊢
  split at h
  · exact absurd rfl h
  · rename_i hx
    rw [if_neg hx]
    unfold OrderedMap.getD at h ⊢
    cases hw : t.classes.get? w with
    | none => rw [hw] at h; exact absurd rfl h
    | some target =>
      have := ht target (.ofClass (OrderedMap.mem_values_of_get? hw))
      exact ⟨this.1, this.2⟩

theorem seated_signature (ht : t.PlainTargets) (s : Text) :
    Seated (fun a b => b = t.mapClass a) (fun _ _ => False) .plain
      (retype t.mapClassExact .plain (s.map .kept)) (Context.plain.after s) := by
  have hread := (@seated_map_kept (fun a b => b = t.mapClass a) (fun _ _ => False) .plain s).reading
    (Context.isSound_of_opening_eq_nil rfl)
  exact seated_retype hread (fun _ _ h => h.elim)
    (fun w _ hne => isName_mapClassExact ht hne) rfl fun _ => rfl

/-! ## The two passes -/

theorem definitionLead_eq (indent directive gap : Text) (c : Char) :
    definitionLead indent directive gap c = (indent ++ (directive ++ gap)) ++ [c] := by
  simp [definitionLead]

/-- A line that defines a field, cut around the blank before the name: no class ends in front of
it. -/
theorem exists_lead_of_fieldDefinition? {code : Text} {d : FieldDefinition}
    (hd : fieldDefinition? code = some d) :
    ∃ lead c rest, code = lead ++ c :: (d.name ++ ':' :: (d.type ++ rest)) ∧
      d.place = (lead ++ [c]).length ∧ d.typePlace = (lead ++ c :: (d.name ++ [':'])).length ∧
      ';' ∉ lead ++ [c] ∧ Text.isBlank c = true := by
  obtain ⟨indent, gap, c, rest, hcode, hplace, hindent, hlead, -⟩ := fieldDefinition?_eq_some hd
  have hsemi := @notMem_definitionLead indent ".field".toList gap c hindent (by decide) hlead
  rw [definitionLead_eq] at hcode hplace hsemi
  generalize indent ++ (".field".toList ++ gap) = lead at hcode hplace hsemi
  refine ⟨lead, c, rest, by rw [hcode]; simp, hplace, ?_, hsemi, hlead.blank⟩
  rw [FieldDefinition.typePlace, hplace]
  simp only [List.length_append, List.length_cons, List.length_nil]
  omega

/-- A line that defines a method, cut in the same way. -/
theorem exists_lead_of_methodDefinition? {code : Text} {d : MethodDefinition}
    (hd : methodDefinition? code = some d) :
    ∃ lead c rest,
      code = lead ++ c :: (d.name ++ '(' :: (d.parameters ++ ')' :: (d.result ++ rest))) ∧
      d.place = (lead ++ [c]).length ∧
      d.parametersPlace = (lead ++ c :: (d.name ++ ['('])).length ∧
      ';' ∉ lead ++ [c] ∧ Text.isBlank c = true := by
  obtain ⟨indent, gap, c, rest, hcode, hplace, hindent, hlead, -⟩ := methodDefinition?_eq_some hd
  have hsemi := @notMem_definitionLead indent ".method".toList gap c hindent (by decide) hlead
  rw [definitionLead_eq] at hcode hplace hsemi
  generalize indent ++ (".method".toList ++ gap) = lead at hcode hplace hsemi
  refine ⟨lead, c, rest, by rw [hcode]; simp, hplace, ?_, hsemi, hlead.blank⟩
  rw [MethodDefinition.parametersPlace, hplace]
  simp only [List.length_append, List.length_cons, List.length_nil]
  omega

theorem within_typeEdits {f : Text → Text} {place : Nat} {s : Text} {e : Edit}
    (h : e ∈ typeEdits f place s) :
    place ≤ e.span.start ∧ e.span.start ≤ e.span.stop ∧ e.span.stop ≤ place + s.length := by
  obtain ⟨u, name, v, rfl, -, -, rfl⟩ := exists_type_of_mem_typeEdits h
  simp only [editAt, List.length_append, List.length_cons]
  omega

theorem editFrom_signature (f : Text → Text) {place : Nat} {s : Text} {es : List Edit}
    (hes : ∀ e ∈ es, place + s.length < e.span.start) (B : List Piece) :
    editFrom place (typeEdits f place s ++ es) (s.map .kept ++ B) =
      retype f .plain (s.map .kept) ++ editFrom (place + s.length) es B := by
  rw [editFrom_append_of_within (pairwise_typeEdits f place s)
    (fun e he => within_typeEdits he) hes, editFrom_typeEdits]

theorem editFrom_signatures (f : Text → Text) {place : Nat} {p r : Text} (B : List Piece) :
    editFrom place (typeEdits f place p ++ typeEdits f (place + p.length + 1) r)
        (p.map .kept ++ .kept ')' :: (r.map .kept ++ B)) =
      retype f .plain (p.map .kept) ++ .kept ')' :: (retype f .plain (r.map .kept) ++ B) := by
  have hbehind : ∀ e ∈ typeEdits f (place + p.length + 1) r, place + p.length + 1 < e.span.start :=
    fun e he => (bounds_of_mem_typeEdits he).1
  have hmark := @editFrom_append (place + p.length) (typeEdits f (place + p.length + 1) r)
    [Piece.kept ')'] hbehind (r.map .kept ++ B)
  have hlast := @editFrom_signature f (place + p.length + 1) r [] (by simp) B
  rw [List.append_nil] at hlast
  rw [editFrom_signature f (fun e he => by have := hbehind e he; omega)]
  refine congrArg _ (hmark.trans ?_)
  exact congrArg _ hlast

theorem exists_opened_fieldPass (ht : t.PlainTargets) (owner code : Text)
    (hname : ∀ d, fieldDefinition? code = some d → ';' ∉ d.name) :
    ∃ X Q e, Opened (fun a b => b = t.mapClass a) (fieldPass t owner (.ofText code)) X Q e := by
  cases hd : fieldDefinition? code with
  | none =>
    rw [fieldPass_of_none (by rwa [text_ofText])]
    exact ⟨_, _, _, opened_ofText code⟩
  | some d =>
    rw [fieldPass_of_some (by rwa [text_ofText])]
    split
    · obtain ⟨lead, c, rest, hcode, hplace, htype, hsemi, hblank⟩ := exists_lead_of_fieldDefinition? hd
      have hnames := openNames_of_eq_or_isTarget ht
        (t.mapField_eq owner d.name (some d.type)) (hname d hd)
      have hpieces := @pieces_edit_definition lead d.name (d.type ++ rest)
        (t.mapField owner d.name (some d.type)) c ':'
        (typeEdits t.mapClassExact d.typePlace d.type)
        (fun e he => by rw [← htype]; exact (bounds_of_mem_typeEdits he).1)
      have hsignature := @editFrom_signature t.mapClassExact d.typePlace d.type []
        (by simp) (rest.map .kept)
      rw [List.append_nil, ← List.map_append] at hsignature
      rw [← htype, hsignature] at hpieces
      rw [FieldDefinition.edits, hcode, hplace]
      exact ⟨_, _, _, opened_definition hsemi hblank hnames (.inr rfl) hpieces
        ((seated_signature ht d.type).append (seated_map_kept _ rest))⟩
    · exact ⟨_, _, _, opened_ofText code⟩

theorem exists_opened_methodPass (ht : t.PlainTargets) (owner code : Text)
    (hname : ∀ d, methodDefinition? code = some d → ';' ∉ d.name) :
    ∃ X Q e, Opened (fun a b => b = t.mapClass a) (methodPass t owner (.ofText code)) X Q e := by
  cases hd : methodDefinition? code with
  | none =>
    rw [methodPass_of_none (by rwa [text_ofText])]
    exact ⟨_, _, _, opened_ofText code⟩
  | some d =>
    rw [methodPass_of_some (by rwa [text_ofText])]
    split
    · obtain ⟨lead, c, rest, hcode, hplace, hparameters, hsemi, hblank⟩ :=
        exists_lead_of_methodDefinition? hd
      have hresult : d.resultPlace = d.parametersPlace + d.parameters.length + 1 := rfl
      have hnames := openNames_of_eq_or_isTarget ht
        (t.mapMethod_eq owner d.name (some d.descriptor)) (hname d hd)
      have hpieces := @pieces_edit_definition lead d.name
        (d.parameters ++ ')' :: (d.result ++ rest))
        (t.mapMethod owner d.name (some d.descriptor)) c '('
        (typeEdits t.mapClassExact d.parametersPlace d.parameters ++
          typeEdits t.mapClassExact d.resultPlace d.result)
        (fun e he => by rw [← hparameters]; exact d.parametersPlace_lt he)
      have hsignature := @editFrom_signatures t.mapClassExact d.parametersPlace d.parameters
        d.result (rest.map .kept)
      have htail : (d.parameters ++ ')' :: (d.result ++ rest)).map Piece.kept =
          d.parameters.map .kept ++ .kept ')' :: (d.result.map .kept ++ rest.map .kept) := by simp
      have hseated : Seated (fun a b => b = t.mapClass a) (fun _ _ => False)
          (Context.plain.after d.parameters) (.kept ')' ::
            (retype t.mapClassExact .plain (d.result.map .kept) ++ rest.map .kept))
          ((Context.plain.after d.result).after rest) := by
        refine .kept ?_
        rw [Context.next_of_not_isClassChar (by decide)]
        exact (seated_signature ht d.result).append (seated_map_kept _ rest)
      rw [← hparameters, htail, hresult, hsignature] at hpieces
      rw [MethodDefinition.edits, hcode, hplace]
      exact ⟨_, _, _, opened_definition hsemi hblank hnames (.inl rfl) hpieces
        ((seated_signature ht d.parameters).append hseated)⟩
    · exact ⟨_, _, _, opened_ofText code⟩

/-- **Behind the passes over definitions** only one of them has touched the line. -/
theorem exists_opened (ht : t.PlainTargets) (owner code : Text)
    (hfield : ∀ d, fieldDefinition? code = some d → ';' ∉ d.name)
    (hmethod : ∀ d, methodDefinition? code = some d → ';' ∉ d.name) :
    ∃ X Q e, Opened (fun a b => b = t.mapClass a)
      (methodPass t owner (fieldPass t owner (.ofText code))) X Q e := by
  rcases fieldPass_eq_or t owner code with h | h
  · rw [h]
    exact exists_opened_methodPass ht owner code hmethod
  · rw [methodPass_of_none h]
    exact exists_opened_fieldPass ht owner code hfield

end Lines

end Assembly

end Renaming
