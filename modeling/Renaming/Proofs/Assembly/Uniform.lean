import Renaming.Proofs.Assembly.Definition

/-!
# `Proofs/Assembly/Uniform` — a class has one new name, wherever it stands

Three passes rename classes: in the signature of a definition by their own rename, in references as
owners, in types by the whole look-up; and each skips what another has touched. That no class is
missed and none is renamed in two ways is `typeNames_renameLine`: scanning the new code for types
finds the classes of the old code, in order, each under the name `mapClass` gives it. On lines that
define nothing the same holds of references (`mentions_renameLine`).
-/

set_option autoImplicit false

namespace Renaming

namespace Assembly

open Line

/-- The text with every type in it renamed by `f`. -/
def renameTypes (f : Text → Text) (s : Text) : Text := ((ofText s).edit (typeEdits f 0 s)).text

/-- A reference and its signature as they read when everything in them is renamed. -/
def renameMention (t : Table) (m : Reference × Text) : Reference × Text :=
  (⟨t.mapClass m.1.owner, mapReference t m.1, m.1.descriptor.map (renameTypes t.mapClass)⟩,
    renameTypes t.mapClass m.2)

section Line

variable {t : Table} {owner code : Text}

theorem quoteFree_of_plainTargets (ht : t.PlainTargets) : t.QuoteFree :=
  fun _ h => notMem_of_isTarget ht h (by decide)

theorem isName_of_mem_typeNames {s w : Text} (h : w ∈ typeNames s) : IsName isClassChar w := by
  obtain ⟨⟨i, name, n⟩, hx, rfl⟩ := List.mem_map.1 h
  obtain ⟨-, -, hname, -⟩ := type?_eq_some_iff.1 (find_of_mem_scan hx).2
  exact hname

theorem isName_mapClass (ht : t.PlainTargets) {w : Text} (hw : IsName isClassChar w)
    (hne : t.mapClass w ≠ []) : IsName isClassChar (t.mapClass w) :=
  ⟨hne, Table.mapClass_forall (fun target h => (ht target h).2) hw.all⟩

/-- What is asked of a line, that its names can be told apart: the owners of references are classes,
and members have no semicolon in their names. -/
structure Distinct (code : Text) : Prop where
  quote : '"' ∉ code
  owner : ∀ m ∈ mentions code, ∀ c ∈ m.1.owner, isClassChar c = true
  member : ∀ m ∈ mentions code, ';' ∉ m.1.name
  field : ∀ d ∈ fieldDefinition? code, ';' ∉ d.name
  method : ∀ d ∈ methodDefinition? code, ';' ∉ d.name

instance (code : Text) : Decidable (Distinct code) :=
  decidable_of_iff ('"' ∉ code ∧ (∀ m ∈ mentions code, m.1.owner.all isClassChar = true) ∧
      (∀ m ∈ mentions code, ';' ∉ m.1.name) ∧ (∀ d ∈ fieldDefinition? code, ';' ∉ d.name) ∧
      ∀ d ∈ methodDefinition? code, ';' ∉ d.name)
    ⟨fun ⟨quote, owner, member, field, method⟩ =>
      ⟨quote, fun m hm => List.all_eq_true.1 (owner m hm), member, field, method⟩,
      fun h => ⟨h.quote, fun m hm => List.all_eq_true.2 (h.owner m hm), h.member, h.field,
        h.method⟩⟩

/-- No class in the line loses its whole name. -/
def Named (t : Table) (code : Text) : Prop := ∀ w ∈ typeNames code, t.mapClass w ≠ []

instance (t : Table) (code : Text) : Decidable (Named t code) :=
  inferInstanceAs (Decidable (∀ w ∈ typeNames code, t.mapClass w ≠ []))

theorem Named.isName (ht : t.PlainTargets) (h : Named t code) {w : Text}
    (hw : w ∈ typeNames code) : IsName isClassChar (t.mapClass w) :=
  isName_mapClass ht (isName_of_mem_typeNames hw) (h w hw)

theorem Distinct.proper (ht : t.PlainTargets) (h : Distinct code) (hn : Named t code) :
    Proper t OpenNames code :=
  ⟨fun m hm => ⟨h.owner m hm, openNames_of_eq_or_isTarget ht (mapReference_eq t m.1)
    (h.member m hm)⟩, fun _ => hn.isName ht⟩

/-- Behind the first three passes all names sit where they should. -/
theorem exists_seated (ht : t.PlainTargets) (h : Distinct code) (hn : Named t code) :
    ∃ e, Seated (fun a b => b = t.mapClass a) OpenNames .plain
      (referencePass t (methodPass t owner (fieldPass t owner (.ofText code)))).pieces e := by
  obtain ⟨X, Q, e, hopen⟩ := exists_opened ht owner code h.field h.method
  have hsource := (progress_methodPass t owner code).source
  generalize methodPass t owner (fieldPass t owner (.ofText code)) = l at hopen hsource
  have hcode : code = sourceOf X ++ sourceOf Q := by
    rw [← sourceOf_append, ← hopen.pieces]
    exact hsource.symm
  have hproper := h.proper ht hn
  rw [hcode] at hproper
  have hfront : (Context.plain.after (sourceOf X)).opening = [] := by
    rw [hopen.front.after_sourceOf]
    rfl
  have hrest : Proper t OpenNames (sourceOf Q) := by
    refine ⟨hopen.mentions (sourceOf Q) ▸ hproper.mentions, fun w hw => hproper.names w ?_⟩
    rw [typeNames_append hfront]
    exact List.mem_append_right _ hw
  have hlinked := @seated_linked t (fun a b => b = t.mapClass a) OpenNames l (fun _ => rfl) _ _ X Q
    hopen.rest rfl hopen.pieces hrest
  have hskip := @linked_append l.isFree t [] X Q (by
    have := hopen.skip (textOf Q)
    simpa using congrArg _ this)
  rw [List.nil_append] at hskip
  rw [referencePass_pieces, hopen.pieces]
  refine ⟨e, ?_⟩
  rw [show linked l.isFree t 0 (X ++ Q) = X ++ linked l.isFree t (textOf X).length Q from hskip]
  exact hopen.front.append hlinked

/-- **Scanning the new code for types finds the classes of the old one, each under its one new
name.** -/
theorem typeNames_renameLine (ht : t.PlainTargets) (h : Distinct code) (hn : Named t code) :
    typeNames (renameLine t owner code).text = (typeNames code).map t.mapClass := by
  obtain ⟨e, hseated⟩ := @exists_seated t owner code ht h hn
  have hprogress := (progress_methodPass t owner code).referencePass (quoteFree_of_plainTargets ht)
  have hquote := hprogress.notMem_text (quoteFree_of_plainTargets ht) h.quote
  have hsource : sourceOf _ = code := hprogress.source
  have hread := hseated.reading (Context.isSound_of_opening_eq_nil rfl)
  have hpieces := typePass_pieces t hquote hseated fun _ _ h => h.2
  show typeNames (textOf (typePass t _).pieces) = _
  rw [hpieces, typeNames_retype hread (fun _ _ h => h) (fun _ _ h => h) fun w hw => ?_,
    Context.opening_plain, List.nil_append, hsource]
  rw [Context.opening_plain, List.nil_append, hsource] at hw
  exact hn.isName ht hw

/-! ## References on lines that define nothing -/

/-- The pieces of a part of a line that defines nothing, behind all passes. -/
def relined (t : Table) (code : Text) (s : Context) (X : List Piece) (w : Text) : List Piece :=
  retype t.mapClass s (linked (ofText code).isFree t (textOf X).length (w.map .kept))

theorem renameTypes_eq (f : Text → Text) (s : Text) :
    renameTypes f s = textOf (retype f .plain (s.map .kept)) :=
  congrArg textOf (editFrom_typeEdits f 0 s)

variable {s : Context} {X : List Piece} {w : Text}

theorem sourceOf_linked (free : Span → Bool) (t : Table) (i : Nat) (ps : List Piece) :
    sourceOf (linked free t i ps) = sourceOf ps := source_editFrom _ _ _

theorem seated_linked_ofText (hs : s.opening = []) (hX : (ofText code).pieces = X ++ w.map .kept)
    (hw : Proper t MemberNames w) :
    Seated (fun a b => b = t.mapClass a) MemberNames s
      (linked (ofText code).isFree t (textOf X).length (w.map .kept)) (s.after w) :=
  @seated_linked t (fun a b => b = t.mapClass a) MemberNames (ofText code) (fun _ => rfl) s _ X _
    (seated_map_kept s w) hs hX (by rwa [sourceOf_map_kept])

theorem sourceOf_relined (hs : s.opening = []) (hX : (ofText code).pieces = X ++ w.map .kept)
    (hw : Proper t MemberNames w) : sourceOf (relined t code s X w) = w := by
  have hread := (seated_linked_ofText hs hX hw).reading (Context.isSound_of_opening_eq_nil hs)
  rw [relined, sourceOf_retype hread, hs, sourceOf_linked, sourceOf_map_kept]
  rfl

theorem seated_relined (hs : s.opening = []) (hX : (ofText code).pieces = X ++ w.map .kept)
    (hw : Proper t MemberNames w) :
    Seated (fun a b => b = t.mapClass a) MemberNames s (relined t code s X w) (s.after w) := by
  have hread := (seated_linked_ofText hs hX hw).reading (Context.isSound_of_opening_eq_nil hs)
  refine seated_retype hread (fun _ _ h => h.1.semicolon) (fun v hv _ => ⟨hw.names v ?_, rfl⟩) hs
    fun _ => rfl
  rwa [hs, List.nil_append, sourceOf_linked, sourceOf_map_kept] at hv

theorem relined_cons {c : Char} (hs : s.opening = []) (hc : c ≠ 'L') :
    relined t code s X (c :: w) =
      .kept c :: relined t code (.behind c) (X ++ [Piece.kept c]) w := by
  have hscan := scanFrom_none (reference?_eq_none_of_ne hc w) (textOf X).length
  have hstep := @linked_append (ofText code).isFree t X [Piece.kept c] (w.map .kept)
    (by simpa using congrArg _ hscan)
  simp only [List.singleton_append] at hstep
  rw [relined, List.map_cons, hstep, retype_skip hs hc]
  rfl

/-- A class name that is open to the end of the line. -/
theorem relined_open (hs : s.opening = []) (hw : ∀ c ∈ w, isClassChar c = true)
    (hnone : reference? ('L' :: w) = none) :
    relined t code s X ('L' :: w) = ('L' :: w).map .kept := by
  have hscan := @scanFrom_reference_run w [] (fun c hc => isOwnerChar_of_isClassChar (hw c hc))
    (by rwa [List.append_nil]) (textOf X).length
  rw [List.append_nil] at hscan
  have hlinked : linked (ofText code).isFree t (textOf X).length (('L' :: w).map .kept) =
      ('L' :: w).map .kept := by
    rw [linked, passFrom, textOf_map_kept, hscan]
    rfl
  have hrun := @retype_run t.mapClass w [] [] hw
  rw [List.append_nil] at hrun
  rw [relined, hlinked, List.map_cons, retype_begin hs, hrun, List.nil_append, retype]
  rfl

/-- A class name that begins no reference. -/
theorem relined_lost {v : Text} {x : Char} (hs : s.opening = [])
    (hv : ∀ c ∈ v, isClassChar c = true) (hx : isClassChar x = false)
    (hnone : reference? ('L' :: (v ++ x :: w)) = none) :
    ∃ v', relined t code s X ('L' :: (v ++ x :: w)) = .kept 'L' :: (v' ++ .kept x ::
        relined t code (.behind x) (X ++ .kept 'L' :: (v.map .kept ++ [Piece.kept x])) w) ∧
      (v' = v.map .kept ∨
        v' = renamedName t.mapClass v ∧ v ∈ typeNames ('L' :: (v ++ x :: w))) := by
  have hscan := scanFrom_reference_lost hv hx hnone (textOf X).length
  have hstep := @linked_append (ofText code).isFree t X
    (.kept 'L' :: (v.map .kept ++ [Piece.kept x])) (w.map .kept) (by simp [hscan])
  simp only [List.cons_append, List.append_assoc, List.nil_append] at hstep
  have hpieces : ('L' :: (v ++ x :: w)).map Piece.kept =
      .kept 'L' :: (v.map .kept ++ .kept x :: w.map .kept) := by simp
  rw [relined, hpieces, hstep, retype_begin hs, retype_run hv, List.nil_append]
  by_cases hfound : x = ';' ∧ v ≠ []
  · obtain ⟨rfl, hne⟩ := hfound
    refine ⟨renamedName t.mapClass v, retype_found hne, .inr ⟨rfl, ?_⟩⟩
    rw [typeNames_found ⟨hne, hv⟩]
    exact List.mem_cons_self
  · refine ⟨v.map .kept, retype_lost hx ?_, .inl rfl⟩
    by_cases hne : v = []
    · exact .inl hne
    · exact .inr fun hsemi => hfound ⟨hsemi, hne⟩

/-- A reference that was renamed, and the types behind it. -/
theorem retype_linkedPieces {f : Text → Text} {r : Reference} {signature : Text}
    (hr : IsReference r signature) (hs : s.opening = []) (R : List Piece) :
    retype f s (linkedPieces t r signature ++ R) =
      .kept 'L' :: .replaced r.owner (t.mapClass r.owner) :: .kept ';' :: .kept '-' :: .kept '>' ::
        .replaced r.name (mapReference t r) ::
          (retype f .plain (signature.map .kept) ++ retype f .plain R) := by
  obtain ⟨y, tail, rfl, hy, htail⟩ := hr.signature.exists_mark
  have hread : Reading (fun _ _ => False) (fun _ _ => False) .plain (tail.map .kept) .plain := by
    have := @seated_map_kept (fun _ _ => False) (fun _ _ => False) .plain tail
    rw [htail] at this
    exact this.reading (Context.isSound_of_opening_eq_nil rfl)
  rw [linkedPieces, List.map_cons,
    retype_skip rfl (ne_L_of_not_isClassChar (isClassChar_of_mark hy)), behind_of_mark hy]
  simp only [List.cons_append]
  rw [retype_begin hs, retype_ofClass, retype_skip rfl (by decide),
    retype_skip (by decide) (by decide), show Context.behind '>' = .tip by decide,
    retype_ofMember _ _ hy, retype_append hread rfl]

/-- A reference. -/
theorem relined_found {r : Reference} {signature : Text} (hq : '"' ∉ code) (hs : s.opening = [])
    (hX : (ofText code).pieces = X ++ (r.text signature ++ w).map .kept)
    (hr : IsReference r signature) :
    textOf (relined t code s X (r.text signature ++ w)) =
      Reference.text ⟨t.mapClass r.owner, mapReference t r,
          r.descriptor.map (renameTypes t.mapClass)⟩ (renameTypes t.mapClass signature) ++
        textOf (relined t code .plain (X ++ (r.text signature).map .kept) w) := by
  have hfree := (@tells_isFree (ofText code) (by rwa [text_ofText])).kept X (r.text signature)
    (w.map .kept) (by rw [hX, List.map_append])
  rw [relined, List.map_append, linked_found hr hfree, retype_linkedPieces hr hs, renameTypes_eq]
  simp [Reference.text, relined]

/-- With every type in it renamed, a signature is one still. -/
theorem isSignature_renameTypes {d : Option Text} {signature : Text}
    (h : IsSignature d signature)
    (hf : ∀ w ∈ typeNames signature, IsName isClassChar (t.mapClass w)) :
    IsSignature (d.map (renameTypes t.mapClass)) (renameTypes t.mapClass signature) := by
  obtain ⟨y, tail, rfl, hy, htail⟩ := h.exists_mark
  have hL := ne_L_of_not_isClassChar (isClassChar_of_mark hy)
  rw [typeNames_cons hL] at hf
  have hread := (@seated_map_kept (fun a b => b = t.mapClass a) (fun _ _ => False) .plain
    tail).reading (Context.isSound_of_opening_eq_nil rfl)
  rw [htail] at hread
  have hseated := seated_retype hread (fun _ _ h => h.elim)
    (fun w hw _ => ⟨hf w (by simpa using hw), rfl⟩) rfl fun _ => rfl
  have hsource := @sourceOf_retype t.mapClass _ _ _ _ _ hread
  have hrenamed : renameTypes t.mapClass (y :: tail) =
      y :: textOf (retype t.mapClass .plain (tail.map .kept)) := by
    rw [renameTypes_eq, List.map_cons, retype_skip rfl hL, behind_of_mark hy,
      textOf_kept]
  generalize retype t.mapClass .plain (tail.map .kept) = P at hseated hsource hrenamed
  -- the old signature is the text of the pieces with their names exchanged
  have hswap : textOf (P.map Piece.swap) = tail ++ [] := by simpa using hsource
  obtain ⟨S, B, d', hP, hS, hd', -, hB⟩ :=
    hseated.swap.exists_signature (fun _ _ h => h.elim) hswap h
  have hBnil : textOf B = [] := by
    have := congrArg textOf hP
    rw [textOf_map_swap, hsource, textOf_append, hS] at this
    simpa using this
  obtain rfl := hB.eq_nil hBnil
  rw [List.append_nil] at hP
  rw [← hP, sourceOf_map_swap, ← hrenamed] at hd'
  have hmark : (renameTypes t.mapClass (y :: tail)).head? = some y := by rw [hrenamed]; rfl
  have heq : d.map (renameTypes t.mapClass) = d' := by
    rw [h.descriptor_eq, hd'.descriptor_eq, hmark, List.head?_cons]
    split <;> rfl
  rw [heq]
  exact hd'

/-- **On a line that defines nothing, references are found where they were, each with everything in
it renamed.** The recursion goes from shape to shape, as the scan does. -/
theorem mentions_relined {s : Context} {X : List Piece} {w : Text} (hq : '"' ∉ code)
    (hs : s.opening = []) (hX : (ofText code).pieces = X ++ w.map .kept)
    (hw : Proper t MemberNames w) :
    mentions (textOf (relined t code s X w)) = (mentions w).map (renameMention t) := by
  cases w with
  | nil =>
    have hnil : relined t code s X [] = [] := by
      rw [relined]
      show retype t.mapClass s [] = []
      rw [retype, hs]
      rfl
    rw [hnil]
    rfl
  | cons c w =>
    by_cases hc : c = 'L'
    · subst hc
      cases hf : reference? ('L' :: w) with
      | none =>
        have hsplit : w.takeWhile isClassChar ++ w.dropWhile isClassChar = w :=
          List.takeWhile_append_dropWhile
        have hv : ∀ d ∈ w.takeWhile isClassChar, isClassChar d = true := fun _ => of_mem_takeWhile
        have hstop := stops_dropWhile isClassChar w
        cases ht : w.dropWhile isClassChar with
        | nil =>
          -- the name is open to the end of the line
          rw [ht, List.append_nil] at hsplit
          rw [hsplit] at hv
          rw [relined_open hs hv hf, textOf_map_kept, mentions_eq_nil hv hf]
          rfl
        | cons x u =>
          rw [ht, stops_cons] at hstop
          rw [ht] at hsplit
          have hlt : u.length < ('L' :: w).length := by
            rw [← hsplit, List.length_cons, List.length_append, List.length_cons]
            omega
          generalize w.takeWhile isClassChar = v at hsplit hv
          subst hsplit
          have hrest := hw.of_lost hv hstop hf
          have hseated := seated_relined hs hX hw
          have hsource := sourceOf_relined hs hX hw
          obtain ⟨v', hrelined, hv'⟩ := @relined_lost t code s X u v x hs hv hstop hf
          have hclass : ∀ d ∈ textOf v', isClassChar d = true := by
            rcases hv' with rfl | ⟨rfl, hmem⟩
            · rwa [textOf_map_kept]
            · rw [textOf_renamedName]
              exact (hw.names v hmem).all
          -- read in lockstep, the new text holds no reference here either
          rw [hrelined] at hseated hsource
          have hrun := hseated.of_kept
          rw [Context.next_L hs] at hrun
          have hnone := (hrun.reference?_eq_none_iff fun _ _ => id).2 (by
            rw [← sourceOf_kept, hsource]
            exact hf)
          rw [textOf_append, textOf_kept] at hnone
          rw [hrelined, textOf_kept, textOf_append, textOf_kept, mentions_lost hclass hstop hnone,
            mentions_lost hv hstop hf]
          exact mentions_relined hq (Context.opening_behind x) (by simp [hX]) hrest
      | some y =>
        obtain ⟨r, n⟩ := y
        obtain ⟨signature, rest, htext, hr, -⟩ := reference?_eq_some_iff.1 hf
        have hlt : rest.length < ('L' :: w).length := by
          rw [htext, List.length_append, Reference.length_text]
          omega
        rw [htext] at hX hw ⊢
        obtain ⟨-, hnew, hmember, hrest⟩ := hw.of_found hr
        have hr' : IsReference ⟨t.mapClass r.owner, mapReference t r,
            r.descriptor.map (renameTypes t.mapClass)⟩ (renameTypes t.mapClass signature) :=
          ⟨⟨hnew.ne_nil, fun d hd => isOwnerChar_of_isClassChar (hnew.all d hd)⟩, hmember.2.name,
            isSignature_renameTypes hr.signature fun v hv =>
              hw.names v (mem_typeNames_of_signature hr hv rest)⟩
        have hih := mentions_relined (s := .plain) (X := X ++ (r.text signature).map .kept) hq rfl
          (by simp [hX]) hrest
        rw [relined_found hq hs hX hr, mentions_found hr', mentions_found hr, hih, List.map_cons]
        rfl
    · rw [relined_cons hs hc, textOf_kept, mentions_cons hc, mentions_cons hc]
      exact mentions_relined hq (Context.opening_behind c) (by simp [hX]) (hw.of_cons hc)
termination_by w.length

theorem isName_of_mem_mentions {s : Text} {m : Reference × Text} (h : m ∈ mentions s) :
    IsName isMemberChar m.1.name := by
  obtain ⟨⟨i, r, n⟩, hx, rfl⟩ := List.mem_map.1 h
  obtain ⟨signature, rest, -, hr, -⟩ := reference?_eq_some_iff.1 (find_of_mem_scan hx).2
  exact hr.name

/-- Names that close no signature are exchanged for such names. -/
theorem memberNames_mapReference (ht : t.PlainTargets) {r : Reference} (h : IsMemberName r.name) :
    MemberNames r.name (mapReference t r) := by
  refine ⟨h, ?_⟩
  rcases mapReference_eq t r with heq | htarget
  · rw [heq]
    exact h
  · obtain ⟨hne, hall⟩ := ht _ htarget
    exact ⟨⟨hne, fun c hc => isMemberChar_of_isClassChar (hall c hc)⟩,
      notMem_of_isTarget ht htarget (by decide), notMem_of_isTarget ht htarget (by decide)⟩

/-- **On a line that defines nothing**, scanning the new code for references finds those of the old
one, each with everything in it renamed. -/
theorem mentions_renameLine (ht : t.PlainTargets) (h : Distinct code) (hn : Named t code)
    (hfield : fieldDefinition? code = none) (hmethod : methodDefinition? code = none)
    (hclosed : ∀ m ∈ mentions code, ')' ∉ m.1.name) :
    mentions (renameLine t owner code).text = (mentions code).map (renameMention t) := by
  have hproper : Proper t MemberNames code := by
    refine ⟨fun m hm => ⟨h.owner m hm, ?_⟩, fun _ => hn.isName ht⟩
    exact memberNames_mapReference ht ⟨isName_of_mem_mentions hm, h.member m hm, hclosed m hm⟩
  have hX : (ofText code).pieces = [] ++ code.map .kept := rfl
  have hquote := ((Progress.ofText t owner code).referencePass
    (quoteFree_of_plainTargets ht)).notMem_text (quoteFree_of_plainTargets ht) h.quote
  have hpieces : (typePass t (referencePass t (ofText code))).pieces =
      relined t code .plain [] code :=
    typePass_pieces t hquote (seated_linked_ofText rfl hX hproper) fun _ _ h => h.2.semicolon
  rw [renameLine, methodPass_fieldPass_of_none hfield hmethod, Line.text, hpieces]
  exact mentions_relined h.quote rfl hX hproper

/-- **A line is renamed uniformly.** No class is missed and none is renamed in two ways, as long as
no class loses its whole name; a name that is gone is missed for certain. On a line that defines
nothing the references go along, as long as no name in them could close a signature. -/
theorem renameLine_uniform (ht : t.PlainTargets) (h : Distinct code) :
    (typeNames (renameLine t owner code).text = (typeNames code).map t.mapClass ↔ Named t code) ∧
      (Named t code → fieldDefinition? code = none → methodDefinition? code = none →
        (∀ m ∈ mentions code, ')' ∉ m.1.name) →
          mentions (renameLine t owner code).text = (mentions code).map (renameMention t)) := by
  refine ⟨⟨fun heq w hw => ?_, typeNames_renameLine ht h⟩, mentions_renameLine ht h⟩
  have hmem : t.mapClass w ∈ typeNames (renameLine t owner code).text := by
    rw [heq]
    exact List.mem_map_of_mem hw
  exact (isName_of_mem_typeNames hmem).ne_nil

/-- A nested class follows its class, its package the rest. -/
theorem renameLine_uniform_nested :
    let t := ((Table.empty.addPackage "p".toList "q/r".toList).addClass "p/A".toList "x/Y".toList
      .null).addMethod "p/A$I/run (Lp/A;)Lp/B;".toList "go".toList
    let code := "invoke-virtual {v0}, Lp/A$I;->run(Lp/A;)Lp/B;".toList
    t.PlainTargets ∧ Distinct code ∧ Named t code ∧
      (typeNames (renameLine t [] code).text = (typeNames code).map t.mapClass ∧
        mentions (renameLine t [] code).text = (mentions code).map (renameMention t)) ∧
      (renameLine t [] code).text =
        "invoke-virtual {v0}, Lx/Y$I;->go(Lx/Y;)Lq/r/B;".toList :=
  have ht : (((Table.empty.addPackage "p".toList "q/r".toList).addClass "p/A".toList "x/Y".toList
      .null).addMethod "p/A$I/run (Lp/A;)Lp/B;".toList "go".toList).PlainTargets := by
    decide +kernel
  have h : Distinct "invoke-virtual {v0}, Lp/A$I;->run(Lp/A;)Lp/B;".toList := by decide +kernel
  have hn : Named (((Table.empty.addPackage "p".toList "q/r".toList).addClass "p/A".toList
      "x/Y".toList .null).addMethod "p/A$I/run (Lp/A;)Lp/B;".toList "go".toList)
      "invoke-virtual {v0}, Lp/A$I;->run(Lp/A;)Lp/B;".toList := by decide +kernel
  ⟨ht, h, hn, ⟨(renameLine_uniform ht h).1.2 hn, (renameLine_uniform ht h).2 hn
    (by decide +kernel) (by decide +kernel) (by decide +kernel)⟩, by decide +kernel⟩

/-- A class whose whole name is the package it loses is a type no longer, and behind a new name
without its parenthesis another reference begins further left. -/
theorem exists_not_uniform :
    (let t := Table.empty.addPackage "a/b".toList ".".toList
      let code := "La/b/;".toList
      t.PlainTargets ∧ Distinct code ∧
        typeNames (renameLine t [] code).text ≠ (typeNames code).map t.mapClass) ∧
      (let t := Table.empty.addField "B/g)x".toList "h".toList
        let code := "LA;->f(LB;->g)x:I)V".toList
        t.PlainTargets ∧ Distinct code ∧ fieldDefinition? code = none ∧
          methodDefinition? code = none ∧
          mentions (renameLine t [] code).text ≠ (mentions code).map (renameMention t)) := by
  decide +kernel

end Line

end Assembly

end Renaming
