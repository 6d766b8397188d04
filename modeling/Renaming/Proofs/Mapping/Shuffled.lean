import Renaming.Mapping.Load
import Renaming.Proofs.Mapping.BlockEffect

/-!
# `Proofs/Mapping/Shuffled` — files whose rows have changed places

A text has a header, if its notation has one, rows in front of the first class, and then blocks: a
row that stands for itself, or a class with the rows below it (`layout`). Two texts that differ in
the order of their blocks are `Shuffled`.

> They make the same table, as long as rows that name one class agree on its names, or each class
> has one block, and no two renames share a key (`ofFormat_shuffled`).

The readers make mappings that are alike. In a report the readable names of the classes matter as
well, which are told by all blocks; they are the same in any order because no two classes share one.
-/

set_option autoImplicit false

namespace Renaming

namespace Mapping

/-! ## The layout of a text -/

/-- Whether a row stands for itself or is the row of a class, with rows below it. -/
def isTopRow : Format → Text → Bool
  | .yaml, _ | .srg, _ | .csrg, _ | .tiny1, _ => true
  | .tsrg, line => !isIndented line
  | .tsrg2, line | .tiny2, line => tabDepth line == 0
  | .proguard, line => isReportClass line

/-- The number of rows in the header of a notation. -/
def headerLength : Format → Nat
  | .yaml | .srg | .csrg | .tsrg | .proguard => 0
  | .tsrg2 | .tiny1 | .tiny2 => 1

/-- The rows of a text, without blank lines and comments: its header, the rows in front of the first
block, and the blocks. -/
structure Layout where
  header : List Text
  front : List Text
  blocks : List (List Text)

def layout (format : Format) (text : Text) : Layout :=
  let rows := text.contentLines.map Prod.snd
  let parts := blocksFrom (isTopRow format) (rows.drop (headerLength format))
  ⟨rows.take (headerLength format), parts.1, parts.2⟩

/-- The texts have the same blocks in another order, and the same rows in front of them. -/
structure Shuffled (format : Format) (text text' : Text) : Prop where
  header : (layout format text).header = (layout format text').header
  front : (layout format text).front = (layout format text').front
  blocks : (layout format text).blocks.Perm (layout format text').blocks

/-- The names that a row gives a class, in the notations in which rows stand for themselves. -/
def rowNames? : Format → Option (Text → Option (List (Option Text)))
  | .srg => some srgNames
  | .csrg => some csrgNames
  | .tiny1 => some tiny1Names
  | .yaml | .tsrg | .tsrg2 | .tiny2 | .proguard => none

/-- Rows that name the same class, by its first name, give it the same names. -/
def AgreeOnNames (names : Text → Option (List (Option Text))) (rows : List Text) : Prop :=
  ∀ ns ∈ rows.filterMap names, ∀ ns' ∈ rows.filterMap names, ns.head? = ns'.head? → ns = ns'

/-- Each class is told in one way: its rows agree on its names, or it has one block. There is one
block for each class if there are as many blocks as packages and classes. -/
def ToldOnce (format : Format) (text : Text) (m : Mapping) : Prop :=
  match rowNames? format with
  | some names => AgreeOnNames names (layout format text).blocks.flatten
  | none => (layout format text).blocks.length = m.packages.length + m.classes.size

theorem append_layout (format : Format) (text : Text) :
    (layout format text).front ++ (layout format text).blocks.flatten =
      (text.contentLines.map Prod.snd).drop (headerLength format) :=
  append_flatten_blocksFrom _ _

theorem eq_false_of_mem_front {format : Format} {text row : Text}
    (h : row ∈ (layout format text).front) : isTopRow format row = false :=
  starts_of_mem_front _ h

/-- The numbered rows of a block: its first row is a top row and the others are not. -/
theorem exists_rows_of_mem_blocks {format : Format} {text : Text} {block : List Text}
    (h : block ∈ (layout format text).blocks) {rows : List (Nat × Text)}
    (hrows : rows.map Prod.snd = block) :
    ∃ n top inner, rows = (n, top) :: inner ∧ block = top :: inner.map Prod.snd ∧
      isTopRow format top = true ∧ ∀ row ∈ inner, isTopRow format row.2 = false := by
  obtain ⟨top, lines, rfl, htop, hlines⟩ := exists_cons_of_mem_blocks _ h
  obtain ⟨⟨n, _⟩, inner, rfl, rfl, rfl⟩ := List.map_eq_cons_iff.1 hrows
  exact ⟨n, _, inner, rfl, rfl, htop, List.forall_mem_map.1 hlines⟩

/-- Without a header, all rows are in front or in blocks. -/
theorem Shuffled.map_contentLines {format : Format} {text text' : Text}
    (h : Shuffled format text text') (hlength : headerLength format = 0) :
    text.contentLines.map Prod.snd =
        (layout format text).front ++ (layout format text).blocks.flatten ∧
      text'.contentLines.map Prod.snd =
        (layout format text).front ++ (layout format text').blocks.flatten := by
  rw [h.front, append_layout, ← h.front, append_layout, hlength]
  exact ⟨rfl, rfl⟩

/-- A text that is shuffled keeps its header. -/
theorem Shuffled.exists_header {format : Format} {text text' : Text} (h : Shuffled format text text')
    (hlength : headerLength format = 1) {n : Nat} {header : Text} {rows : List (Nat × Text)}
    (hlines : text.contentLines = (n, header) :: rows) :
    ∃ n' rows', text'.contentLines = (n', header) :: rows' ∧
      rows.map Prod.snd = (layout format text).front ++ (layout format text).blocks.flatten ∧
      rows'.map Prod.snd = (layout format text).front ++ (layout format text').blocks.flatten := by
  have hheader := h.header
  rw [h.front, append_layout, ← h.front, append_layout]
  unfold layout at hheader
  rw [hlength, hlines] at hheader ⊢
  cases hlines' : text'.contentLines with
  | nil => rw [hlines'] at hheader; cases hheader
  | cons row rows' =>
    obtain ⟨n', header'⟩ := row
    rw [hlines'] at hheader
    obtain rfl : header = header' := List.head_eq_of_cons_eq hheader
    exact ⟨n', rows', rfl, rfl, rfl⟩

/-! ## Rows in any order -/

theorem exists_of_mem_forall₂ {α β : Type} {R : α → β → Prop} {xs : List α} {ys : List β}
    (h : List.Forall₂ R xs ys) {y : β} (hy : y ∈ ys) : ∃ x ∈ xs, R x y := by
  induction h with
  | nil => cases hy
  | cons hxy _ ih =>
    rcases List.mem_cons.1 hy with rfl | hy
    · exact ⟨_, List.mem_cons_self, hxy⟩
    · obtain ⟨x, hx, hR⟩ := ih hy
      exact ⟨x, List.mem_cons_of_mem _ hx, hR⟩

/-- What a block of a notation without rows below others tells: its one row. -/
def IsRowEffect (names : Text → Option (List (Option Text))) (block : List Text) (e : RowEffect) :
    Prop := ∃ row, block = [row] ∧ e.names? = names row ∧ e.IsNamed

/-- Where every row stands for itself, every block has the effect of its row. -/
theorem exists_does_row {step : Mapping → Nat × Text → Except Fault Mapping}
    {names : Text → Option (List (Option Text))} (htells : Says step names) {format : Format}
    (htop : ∀ row, isTopRow format row = true) {text : Text} {block : List Text}
    (hblock : block ∈ (layout format text).blocks) {s s' : Mapping} {rows : List (Nat × Text)}
    (hrows : rows.map Prod.snd = block) (hread : readLines step s rows = .ok s') :
    ∃ e, IsRowEffect names block e ∧ Does step (fun _ => True) id
      (fun m (e : RowEffect) => e.effect.into m) block e := by
  obtain ⟨n, top, inner, rfl, rfl, -, hinner⟩ := exists_rows_of_mem_blocks hblock hrows
  cases inner with
  | cons row inner =>
    have hfalse := hinner row List.mem_cons_self
    rw [htop] at hfalse
    cases hfalse
  | nil =>
    obtain ⟨mid, hstep, -⟩ := readLines_cons_eq_ok hread
    obtain ⟨e, hnames, hnamed, hall⟩ := htells s n top mid hstep
    exact ⟨e, ⟨top, rfl, hnames, hnamed⟩, Leads.row fun s _ n => ⟨_, hall s n, trivial, rfl⟩⟩

/-- **Rows that agree on names may come in any order.** -/
theorem exists_alike_rows {step : Mapping → Nat × Text → Except Fault Mapping}
    {names : Text → Option (List (Option Text))} (htells : Says step names) {format : Format}
    (htop : ∀ row, isTopRow format row = true) {text text' : Text}
    (hshuffled : Shuffled format text text')
    (hagree : AgreeOnNames names (layout format text).blocks.flatten) {start m : Mapping}
    {rows rows' : List (Nat × Text)}
    (hrows : rows.map Prod.snd = (layout format text).front ++ (layout format text).blocks.flatten)
    (hrows' : rows'.map Prod.snd =
      (layout format text).front ++ (layout format text').blocks.flatten)
    (hread : readLines step start rows = .ok m) :
    ∃ m', readLines step start rows' = .ok m' ∧ m.Alike m' := by
  obtain ⟨s₀, es, es', -, hperm, hes, hview, hread'⟩ := exists_shuffled
    (IsRowEffect names) (fun _ => True)
    (fun _ _ => True) (fun _ => trivial) hshuffled.blocks
    (fun row hrow => absurd (htop row) (by rw [eq_false_of_mem_front hrow]; exact Bool.false_ne_true))
    (fun _ block hblock s s' rows hrows _ => exists_does_row htells htop hblock hrows) hrows trivial
    hread
  obtain ⟨m', hread', hview'⟩ := hread' rows' hrows'
  refine ⟨m', hread', ?_⟩
  have hfold : ∀ es : List RowEffect, es.foldl (fun m e => e.effect.into m) s₀ =
      (es.map RowEffect.effect).foldl Effect.into s₀ := fun es => List.foldl_map.symm
  have hsaid : ∀ e ∈ es, e.IsNamed ∧ ∃ row ∈ (layout format text).blocks.flatten,
      e.names? = names row := by
    intro e he
    obtain ⟨block, hblock, row, rfl, hnames, hnamed⟩ := exists_of_mem_forall₂ hes he
    exact ⟨hnamed, row, List.mem_flatten.2 ⟨[row], hblock, List.mem_singleton_self row⟩, hnames⟩
  have hagrees : ∀ e ∈ es, ∀ e' ∈ es, e.Agrees e' := by
    intro e he e' he'
    obtain ⟨-, row, hrow, hnames⟩ := hsaid e he
    obtain ⟨-, row', hrow', hnames'⟩ := hsaid e' he'
    intro ns hns ns' hns'
    rw [hnames] at hns
    rw [hnames'] at hns'
    exact hagree ns (List.mem_filterMap.2 ⟨row, hrow, hns⟩) ns' (List.mem_filterMap.2 ⟨row', hrow', hns'⟩)
  have halike := foldl_into_alike (hperm.map RowEffect.effect) ?respects ?apart s₀
  case respects =>
    rintro _ he
    obtain ⟨e, -, rfl⟩ := List.mem_map.1 he
    exact e.respects
  case apart =>
    rw [List.pairwise_map]
    exact List.pairwise_of_forall_mem_list fun e he e' he' =>
      RowEffect.apart (hagrees e he e' he') (hagrees e' he' e he) (hsaid e he).1 (hsaid e' he').1
  rw [← hfold, ← hfold] at halike
  rw [show m = _ from hview, show m' = _ from hview']
  exact halike

/-! ## Blocks in any order -/

/-- **The blocks of different classes may come in any order.** -/
theorem exists_alike_blocks {σ : Type} {step : σ → Nat × Text → Except Fault σ}
    {mapping : σ → Mapping} (quiet : σ → Prop) (frame : σ → σ → Prop) (hframe : ∀ s, frame s s)
    {format : Format} {namespaces : List Text}
    (hquiet : ∀ s, quiet s → mapping s = ofNamespaces format namespaces) {text text' : Text}
    (hshuffled : Shuffled format text text')
    (hfront : ∀ row, isTopRow format row = false → ∀ s, quiet s → ∀ n s', step s (n, row) = .ok s' →
      quiet s' ∧ ∀ n', step s (n', row) = .ok s')
    (hblocks : ∀ s₀ s s' n top rows, isTopRow format top = true →
      (∀ row ∈ rows, isTopRow format row.2 = false) → frame s₀ s →
      readLines step s ((n, top) :: rows) = .ok s' →
      ∃ e, Does step (frame s₀) mapping Effect.into (top :: rows.map Prod.snd) e)
    {s s' : σ} {rows rows' : List (Nat × Text)}
    (hrows : rows.map Prod.snd = (layout format text).front ++ (layout format text).blocks.flatten)
    (hrows' : rows'.map Prod.snd =
      (layout format text).front ++ (layout format text').blocks.flatten)
    (hs : quiet s) (hread : readLines step s rows = .ok s')
    (hone : (layout format text).blocks.length =
      (mapping s').packages.length + (mapping s').classes.size) :
    ∃ s'', readLines step s rows' = .ok s'' ∧ (mapping s').Alike (mapping s'') := by
  have hdoes : ∀ s₀, ∀ block ∈ (layout format text).blocks, ∀ s s' rows, rows.map Prod.snd = block →
      frame s₀ s → readLines step s rows = .ok s' →
      ∃ e, True ∧ Does step (frame s₀) mapping Effect.into block e := by
    intro s₀ block hblock s s' rows hrows hs hread
    obtain ⟨n, top, inner, rfl, rfl, htop, hinner⟩ := exists_rows_of_mem_blocks hblock hrows
    obtain ⟨e, hdoes⟩ := hblocks s₀ s s' n top inner htop hinner hs hread
    exact ⟨e, trivial, hdoes⟩
  obtain ⟨s₀, es, es', hs₀, hperm, hes, hview, hread'⟩ := exists_shuffled (fun _ _ => True) quiet frame
    hframe hshuffled.blocks (fun row hrow => hfront row (eq_false_of_mem_front hrow)) hdoes hrows hs
    hread
  obtain ⟨s'', hread', hview'⟩ := hread' rows' hrows'
  refine ⟨s'', hread', ?_⟩
  rw [hquiet s₀ hs₀] at hview hview'
  rw [hview] at hone
  rw [hview, hview']
  rw [hes.length_eq] at hone
  exact foldl_into_alike_of_nodup hperm (nodup_firsts hone) format namespaces

/-! ## The readers -/

section Readers

variable {text text' : Text} {m : Mapping}

theorem exists_of_map_eq_ok {α β : Type} {x : Except Fault α} {f : α → β} {b : β}
    (h : f <$> x = .ok b) : ∃ a, x = .ok a ∧ f a = b := by
  cases x with
  | error e => cases h
  | ok a => exact ⟨a, rfl, Except.ok.inj h⟩

theorem exists_alike_tsrg (hread : ofTsrg text = .ok m) (hshuffled : Shuffled .tsrg text text')
    (htold : ToldOnce .tsrg text m) : ∃ m', ofTsrg text' = .ok m' ∧ m.Alike m' := by
  obtain ⟨s', hrun, rfl⟩ := exists_of_map_eq_ok hread
  obtain ⟨hrows, hrows'⟩ := hshuffled.map_contentLines rfl
  have hfront : ∀ row, isTopRow .tsrg row = false → ∀ s, s = ⟨ofNamespaces .tsrg twoTiers, none⟩ →
      ∀ n s', tsrgStep s (n, row) = .ok s' →
        s' = ⟨ofNamespaces .tsrg twoTiers, none⟩ ∧ ∀ n', tsrgStep s (n', row) = .ok s' := by
    rintro row hrow s rfl n s' hstep
    rw [tsrgStep_of_none (by simpa [isTopRow] using hrow) rfl] at hstep
    cases hstep
  obtain ⟨s'', hrun', halike⟩ := exists_alike_blocks _ (fun _ _ => True) (fun _ => trivial)
    (fun _ hs => congrArg Reading.mapping hs) hshuffled hfront
    (fun _ _ _ _ _ _ htop hrows _ hread => exists_does_tsrg (by simpa [isTopRow] using htop)
      (fun row hrow => by simpa [isTopRow] using hrows row hrow) hread)
    hrows hrows' rfl hrun htold
  refine ⟨s''.mapping, ?_, halike⟩
  rw [ofTsrg, hrun']
  rfl

/-- In front of the first class, rows of TSRG2 are refused or passed over. -/
theorem tsrg2Step_front {width : Nat} {row : Text} (hrow : tabDepth row ≠ 0) {s s' : Reading}
    (hs : s.current = none) {n : Nat} (hstep : tsrg2Step width s (n, row) = .ok s') :
    s' = s ∧ ∀ n', tsrg2Step width s (n', row) = .ok s' := by
  cases hdepth : tabDepth row with
  | zero => exact absurd hdepth hrow
  | succ depth =>
    cases depth with
    | zero =>
      simp only [tsrg2Step, hdepth, hs] at hstep
      cases hstep
    | succ depth =>
      simp only [tsrg2Step, hdepth] at hstep ⊢
      cases hstep
      exact ⟨rfl, fun _ => rfl⟩

theorem exists_alike_tsrg2 (hread : ofTsrg2 text = .ok m) (hshuffled : Shuffled .tsrg2 text text')
    (htold : ToldOnce .tsrg2 text m) : ∃ m', ofTsrg2 text' = .ok m' ∧ m.Alike m' := by
  unfold ofTsrg2 at hread
  split at hread
  · cases hread
  · rename_i header rows hlines
    split at hread
    · rename_i word namespaces hfields
      split at hread
      · rename_i hheader
        obtain ⟨s', hrun, rfl⟩ := exists_of_map_eq_ok hread
        obtain ⟨n', rows', hlines', hrows, hrows'⟩ := hshuffled.exists_header rfl hlines
        obtain ⟨s'', hrun', halike⟩ := exists_alike_blocks
          (· = ⟨ofNamespaces .tsrg2 namespaces, none⟩) (fun _ _ => True) (fun _ => trivial)
          (fun _ hs => congrArg Reading.mapping hs) hshuffled
          (fun row hrow s hs n s' hstep => by
            obtain ⟨rfl, hall⟩ := tsrg2Step_front (by simpa [isTopRow] using hrow) (by rw [hs]) hstep
            exact ⟨hs, hall⟩)
          (fun _ _ _ _ _ _ htop hrows _ hread => exists_does_tsrg2 (by simpa [isTopRow] using htop)
            (fun row hrow => by simpa [isTopRow] using hrows row hrow) hread)
          hrows hrows' rfl hrun htold
        refine ⟨s''.mapping, ?_, halike⟩
        simp only [ofTsrg2, hlines', hfields, if_pos hheader, hrun']
        rfl
      · cases hread
    · cases hread

/-- In front of the first class, rows of Tiny v2 are properties or passed over. -/
theorem tiny2Step_front {width : Nat} {row : Text} (hrow : tabDepth row ≠ 0) {s s' : Tiny2Reading}
    (hs : s.current = none) {n : Nat} (hstep : tiny2Step width s (n, row) = .ok s') :
    (s'.mapping = s.mapping ∧ s'.current = none) ∧ ∀ n', tiny2Step width s (n', row) = .ok s' := by
  cases hdepth : tabDepth row with
  | zero => exact absurd hdepth hrow
  | succ depth =>
    cases depth with
    | zero =>
      simp only [tiny2Step, hdepth, hs] at hstep ⊢
      cases hstep
      split
      · exact ⟨⟨rfl, rfl⟩, fun _ => rfl⟩
      · exact ⟨⟨rfl, hs⟩, fun _ => rfl⟩
    | succ depth =>
      simp only [tiny2Step, hdepth, hs] at hstep ⊢
      cases hstep
      exact ⟨⟨rfl, hs⟩, fun _ => rfl⟩

theorem exists_alike_tiny2 (hread : ofTiny2 text = .ok m) (hshuffled : Shuffled .tiny2 text text')
    (htold : ToldOnce .tiny2 text m) : ∃ m', ofTiny2 text' = .ok m' ∧ m.Alike m' := by
  unfold ofTiny2 at hread
  split at hread
  · cases hread
  · rename_i header rows hlines
    split at hread
    · rename_i namespaces hcolumns
      split at hread
      · rename_i hheader
        obtain ⟨s', hrun, rfl⟩ := exists_of_map_eq_ok hread
        obtain ⟨n', rows', hlines', hrows, hrows'⟩ := hshuffled.exists_header rfl hlines
        obtain ⟨s'', hrun', halike⟩ := exists_alike_blocks
          (fun s : Tiny2Reading => s.mapping = ofNamespaces .tiny2 namespaces ∧ s.current = none)
          (fun s₀ s => s.escaped = s₀.escaped) (fun _ => rfl) (fun _ hs => hs.1) hshuffled
          (fun row hrow s hs n s' hstep => by
            obtain ⟨⟨hmapping, hcurrent⟩, hall⟩ :=
              tiny2Step_front (by simpa [isTopRow] using hrow) hs.2 hstep
            exact ⟨⟨hmapping.trans hs.1, hcurrent⟩, hall⟩)
          (fun _ _ _ _ _ _ htop hrows hs hread => exists_does_tiny2 (by simpa [isTopRow] using htop)
            hs (fun row hrow => by simpa [isTopRow] using hrows row hrow) hread)
          hrows hrows' ⟨rfl, rfl⟩ hrun htold
        refine ⟨s''.mapping, ?_, halike⟩
        simp only [ofTiny2, hlines', hcolumns, if_pos hheader, hrun']
        rfl
      · cases hread
    · cases hread

theorem exists_alike_tiny1 (hread : ofTiny1 text = .ok m) (hshuffled : Shuffled .tiny1 text text')
    (htold : ToldOnce .tiny1 text m) : ∃ m', ofTiny1 text' = .ok m' ∧ m.Alike m' := by
  unfold ofTiny1 at hread
  split at hread
  · cases hread
  · rename_i header rows hlines
    split at hread
    · rename_i version namespaces hcolumns
      split at hread
      · rename_i hheader
        obtain ⟨n', rows', hlines', hrows, hrows'⟩ := hshuffled.exists_header rfl hlines
        obtain ⟨m', hrun', halike⟩ := exists_alike_rows (says_tiny1Step _) (fun _ => rfl) hshuffled
          htold hrows hrows' hread
        refine ⟨m', ?_, halike⟩
        simp only [ofTiny1, hlines', hcolumns, if_pos hheader, hrun']
      · cases hread
    · cases hread

/-- **A text that is shuffled is read into a mapping that is alike**, unless it is a report. -/
theorem exists_alike_reader {format : Format} {read : Text → Except Fault Mapping}
    (h : reader? format = some read) (hreport : format ≠ .proguard) (hread : read text = .ok m)
    (hshuffled : Shuffled format text text') (htold : ToldOnce format text m) :
    ∃ m', read text' = .ok m' ∧ m.Alike m' := by
  cases format with
  | yaml => cases h
  | srg =>
    cases h
    obtain ⟨hrows, hrows'⟩ := hshuffled.map_contentLines rfl
    exact exists_alike_rows says_srgStep (fun _ => rfl) hshuffled htold hrows hrows' hread
  | csrg =>
    cases h
    obtain ⟨hrows, hrows'⟩ := hshuffled.map_contentLines rfl
    exact exists_alike_rows says_csrgStep (fun _ => rfl) hshuffled htold hrows hrows' hread
  | tsrg =>
    cases h
    exact exists_alike_tsrg hread hshuffled htold
  | tsrg2 =>
    cases h
    exact exists_alike_tsrg2 hread hshuffled htold
  | tiny1 =>
    cases h
    exact exists_alike_tiny1 hread hshuffled htold
  | tiny2 =>
    cases h
    exact exists_alike_tiny2 hread hshuffled htold
  | proguard => exact absurd rfl hreport

/-! ## Reports -/

/-- In front of the first class, rows of a report are comments or refused. -/
theorem proguardStep_front {row : Text} (hrow : isReportClass row = false) {s s' : ReportReading}
    (hs : s.current = none) {n : Nat} (hstep : proguardStep s (n, row) = .ok s') :
    s' = s ∧ ∀ n', proguardStep s (n', row) = .ok s' := by
  unfold isReportClass at hrow
  simp only [proguardStep] at hstep ⊢
  split at hstep
  · rename_i hcomment
    cases hstep
    exact ⟨rfl, fun _ => if_pos hcomment⟩
  · rename_i hcomment
    have hclass : ProGuard.classRow? (Text.trimRight row) = none := by
      simpa [hcomment] using hrow
    rw [hclass] at hstep
    cases hmember : ProGuard.memberRow? (Text.trimRight row) with
    | none => rw [hmember] at hstep; cases hstep
    | some member => simp only [hmember, hs] at hstep; cases hstep

theorem foldl_reportInto (es : List ReportEffect) (p : Mapping × OrderedMap Text Text) :
    es.foldl ReportEffect.into p = ((es.map ReportEffect.effect).foldl Effect.into p.1,
      (es.map fun e => (e.readable, e.obfuscated)).foldl (fun o q => o.insert q.1 q.2) p.2) := by
  induction es generalizing p with
  | nil => rfl
  | cons e es ih => exact ih (ReportEffect.into p e)

theorem Alike.renameDescriptors {m m' : Mapping} (h : m.Alike m') (rename : Text → Text) :
    (m.renameDescriptors rename).Alike (m'.renameDescriptors rename) := by
  rw [renameDescriptors_eq, renameDescriptors_eq m']
  refine ⟨h.format, h.namespaces, h.packages, fun first => ?_⟩
  show Option.Rel _ ((m.renameDescriptors rename).classes.get? first)
    ((m'.renameDescriptors rename).classes.get? first)
  rw [get?_renameDescriptors, get?_renameDescriptors]
  have hclass := h.classes first
  revert hclass
  generalize m.classes.get? first = a
  generalize m'.classes.get? first = b
  intro hclass
  cases hclass with
  | none => exact .none
  | some hc =>
    refine .some ⟨hc.names, hc.declared, hc.comment, fun kind row => ?_⟩
    cases kind with
    | field =>
      show row ∈ List.map _ _ ↔ row ∈ List.map _ _
      rw [List.mem_map, List.mem_map]
      exact exists_congr fun r => and_congr_left fun _ => hc.rows .field r
    | method =>
      show row ∈ List.map _ _ ↔ row ∈ List.map _ _
      rw [List.mem_map, List.mem_map]
      exact exists_congr fun r => and_congr_left fun _ => hc.rows .method r

/-- A class of a report is among the named ones. -/
theorem mem_namedPairs_report {es : List ReportEffect} (hnames : ∀ e ∈ es, e.Names)
    (hnodup : ((es.map ReportEffect.effect).filterMap Effect.first?).Nodup) (format : Format)
    (namespaces : List Text) (rename : Text → Text) {e : ReportEffect} (he : e ∈ es) :
    (e.obfuscated, e.readable) ∈ (((es.map ReportEffect.effect).foldl Effect.into
      (ofNamespaces format namespaces)).renameDescriptors rename).namedPairs 0 1 := by
  have hname := hnames e he
  have hnonempty : ∀ name : Text, name ≠ [] → Text.nonempty? name = some name := by
    intro name hname
    cases name with
    | nil => exact absurd rfl hname
    | cons c r => rfl
  rw [mem_namedPairs_iff]
  refine ⟨e.obfuscated,
    (e.change ((ofNamespaces format namespaces).mentioned e.obfuscated)).renameRows rename, ?_,
    hname.declared _, ?_, ?_⟩
  · rw [get?_renameDescriptors, (get?_foldl_eq_some_iff hnodup fun _ _ => rfl).2]
    · rfl
    · exact .inr ⟨e.change, List.mem_map_of_mem (f := ReportEffect.effect) he, rfl⟩
  · show nameAt (e.change _).names 0 = _
    rw [hname.names]
    exact hnonempty _ hname.obfuscated
  · show nameAt (e.change _).names 1 = _
    rw [hname.names]
    exact hnonempty _ hname.readable

/-- Without conflicts the readable names tell the classes of a report apart. -/
theorem obfuscated_eq_of_readable_eq {es : List ReportEffect} (hnames : ∀ e ∈ es, e.Names)
    (hnodup : ((es.map ReportEffect.effect).filterMap Effect.first?).Nodup) {format : Format}
    {namespaces : List Text} {rename : Text → Text} {m : Mapping}
    (hm : ((es.map ReportEffect.effect).foldl Effect.into
      (ofNamespaces format namespaces)).renameDescriptors rename = m)
    (hfree : ConflictFree m.packages (m.renamesBetween 0 1))
    {e e' : ReportEffect} (he : e ∈ es) (he' : e' ∈ es) (heq : e.readable = e'.readable) :
    e.obfuscated = e'.obfuscated := by
  have hp := mem_namedPairs_report hnames hnodup format namespaces rename he
  have hq := mem_namedPairs_report hnames hnodup format namespaces rename he'
  rw [← heq] at hq
  rw [hm] at hp hq
  exact hfree.source_eq_of_mem_namedPairs hp hq

/-- What all classes of a report tell of its obfuscated names does not depend on their order, if no
two of them have one readable name. -/
theorem getD_obfuscated {es es' : List ReportEffect} (hperm : es.Perm es')
    (h : ∀ e ∈ es, ∀ e' ∈ es, e.readable = e'.readable → e.obfuscated = e'.obfuscated) :
    (fun c => (OrderedMap.ofList (es.map fun e => (e.readable, e.obfuscated))).getD c c) =
      fun c => (OrderedMap.ofList (es'.map fun e => (e.readable, e.obfuscated))).getD c c := by
  funext c
  have hmem : ∀ p, p ∈ es.map (fun e => (e.readable, e.obfuscated)) ↔
      p ∈ es'.map fun e => (e.readable, e.obfuscated) := fun p => (hperm.map _).mem_iff
  unfold OrderedMap.getD
  rw [get?_ofList_congr hmem (OrderedMap.functional_map h)]

/-- A report has no namespaces to choose from. -/
theorem tiers_report (effects : List Effect) (rename : Text → Text) (namespaces : List Text)
    (source target : Option Text) :
    ((effects.foldl Effect.into (ofNamespaces .proguard namespaces)).renameDescriptors rename).tiers
      source target = .ok (0, 1) := by
  have hformat : ((effects.foldl Effect.into
      (ofNamespaces .proguard namespaces)).renameDescriptors rename).format = .proguard := by
    rw [renameDescriptors_eq]
    exact format_foldl effects _
  unfold tiers isTiered
  rw [hformat]
  rfl

/-- **A report that is shuffled is read into a mapping that is alike**, as long as no two renames
share a key. -/
theorem exists_alike_proguard (hread : ofProGuard text = .ok m)
    (hshuffled : Shuffled .proguard text text') (htold : ToldOnce .proguard text m)
    (hne : m.namespaces ≠ []) {source target : Option Text} {renames : List Entry}
    (hrenames : m.renames source target = .ok renames) (hfree : ConflictFree m.packages renames) :
    ∃ m', ofProGuard text' = .ok m' ∧ m.Alike m' := by
  obtain ⟨s', hrun, hm⟩ := exists_of_bind_eq_ok hread
  cases hm
  obtain ⟨hrows, hrows'⟩ := hshuffled.map_contentLines rfl
  let start : ReportReading :=
    ⟨ofNamespaces .proguard ["obfuscated".toList, "original".toList], .empty, none⟩
  have hdoes : ∀ s₀ : ReportReading, ∀ block ∈ (layout .proguard text).blocks, ∀ s s' rows,
      rows.map Prod.snd = block → True → readLines proguardStep s rows = .ok s' →
      ∃ e : ReportEffect, e.Names ∧ Does proguardStep (fun _ => True)
        (fun s => (s.mapping, s.obfuscated)) ReportEffect.into block e := by
    intro _ block hblock s s' rows hrows _ hread
    obtain ⟨n, top, inner, rfl, rfl, htop, hinner⟩ := exists_rows_of_mem_blocks hblock hrows
    exact exists_does_proguard htop hinner hread
  obtain ⟨s₀, es, es', rfl, hperm, hes, hview, hall⟩ := exists_shuffled
    (fun _ e => ReportEffect.Names e) (· = start) (fun _ _ => True) (fun _ => trivial)
    hshuffled.blocks
    (fun row hrow s hs n s' hstep => by
      obtain ⟨rfl, hall⟩ := proguardStep_front (eq_false_of_mem_front hrow) (by rw [hs]) hstep
      exact ⟨hs, hall⟩)
    hdoes hrows rfl hrun
  obtain ⟨s'', hrun', hview'⟩ := hall _ hrows'
  rw [foldl_reportInto, Prod.mk.injEq] at hview hview'
  obtain ⟨hmapping, hobfuscated⟩ := hview
  obtain ⟨hmapping', hobfuscated'⟩ := hview'
  have hnames : ∀ e ∈ es, e.Names := fun e he =>
    let ⟨_, _, h⟩ := exists_of_mem_forall₂ hes he
    h
  -- one block for each class
  have hone : (layout .proguard text).blocks.length =
      s'.mapping.packages.length + s'.mapping.classes.size := by
    have htold : (layout .proguard text).blocks.length = _ := htold
    rw [OrderedMap.size_eq_of_keys (keys_renameDescriptors s'.mapping _), renameDescriptors_eq]
      at htold
    exact htold
  rw [hes.length_eq, ← List.length_map (f := ReportEffect.effect), hmapping] at hone
  have hnodup := nodup_firsts hone
  have halike := foldl_into_alike_of_nodup (hperm.map ReportEffect.effect) hnodup .proguard
    ["obfuscated".toList, "original".toList]
  -- the readable names tell the classes apart
  have hdistinct : ∀ e ∈ es, ∀ e' ∈ es, e.readable = e'.readable → e.obfuscated = e'.obfuscated := by
    rw [renames_eq_of_namespaces hne, hmapping, tiers_report] at hrenames
    cases hrenames
    rw [hmapping] at hfree
    exact fun e he e' he' => obfuscated_eq_of_readable_eq hnames hnodup rfl hfree he he'
  refine ⟨s''.mapping.renameDescriptors fun c => s''.obfuscated.getD c c, ?_, ?_⟩
  · rw [ofProGuard, hrun']
    rfl
  · have hrename := getD_obfuscated hperm hdistinct
    rw [hmapping, hmapping', hobfuscated, hobfuscated']
    show (renameDescriptors (fun c => (OrderedMap.ofList _).getD c c) _).Alike
      (renameDescriptors (fun c => (OrderedMap.ofList _).getD c c) _)
    rw [← hrename]
    exact halike.renameDescriptors _

end Readers

/-- **The order of rows and blocks does not count.** A text that can be read makes the same table as
any text with the same blocks in another order, for every choice of namespaces for which the renames
have no conflict. -/
theorem ofFormat_shuffled {format : Format} {read : Text → Except Fault Mapping}
    (h : reader? format = some read) {text text' : Text} {m : Mapping} (hread : read text = .ok m)
    (hshuffled : Shuffled format text text') (htold : ToldOnce format text m) {step : Step}
    {renames : List Entry} (hrenames : m.renames step.source step.target = .ok renames)
    (hfree : ConflictFree m.packages renames) :
    ∃ table table', (∀ reader, Table.ofFormat reader format step text = .ok table ∧
        Table.ofFormat reader format step text' = .ok table') ∧
      table.SameLookups table' ∧ table.same? table' = some true := by
  have hne : m.namespaces ≠ [] := by
    obtain ⟨m', hread', hformed⟩ | ⟨f, hread', -⟩ := (ends_reader h text).ok_or_error
    · rw [hread] at hread'
      cases hread'
      exact List.ne_nil_of_length_pos (Nat.lt_of_lt_of_le Nat.two_pos hformed.two_le)
    · rw [hread] at hread'
      cases hread'
  have hmapping : ∃ m', read text' = .ok m' ∧ m.Alike m' := by
    by_cases hreport : format = .proguard
    · subst hreport
      cases h
      exact exists_alike_proguard hread hshuffled htold hne hrenames hfree
    · exact exists_alike_reader h hreport hread hshuffled htold
  obtain ⟨m', hread', halike⟩ := hmapping
  obtain ⟨table, table', htable, htable', hlookups, hsame⟩ :=
    halike.exists_table hne hrenames hfree
  refine ⟨table, table', fun reader => ⟨?_, ?_⟩, hlookups, hsame⟩
  · unfold Table.ofFormat
    rw [h]
    show (read text >>= fun m => m.table step.source step.target) = _
    rw [hread]
    exact htable
  · unfold Table.ofFormat
    rw [h]
    show (read text' >>= fun m => m.table step.source step.target) = _
    rw [hread']
    exact htable'

/-- Members are told before their class. -/
def membersFirst : Text :=
  "PK: p q\nFD: p/C/f q/D/g\nMD: p/C/m (Lp/C;)V q/D/n (Lq/D;)V\nCL: p/C q/D\n".toList

/-- The same rows, the other way round and with a comment. -/
def classFirst : Text :=
  "CL: p/C q/D\nMD: p/C/m (Lp/C;)V q/D/n (Lq/D;)V\n# fields\nFD: p/C/f q/D/g\nPK: p q\n".toList

def membersFirstMapping : Mapping where
  format := .srg
  namespaces := twoTiers
  packages := [("p".toList, "q".toList)]
  classes := .ofList [("p/C".toList,
    { names := twoNames "p/C".toList "q/D".toList
      declared := true
      comment := none
      fields := [⟨twoNames "f".toList "g".toList, none, none⟩]
      methods := [⟨twoNames "m".toList "n".toList, some "(Lp/C;)V".toList, none⟩] })]

theorem ofFormat_shuffled_membersFirst :
    reader? .srg = some ofSrg ∧ ofSrg membersFirst = .ok membersFirstMapping ∧
      Shuffled .srg membersFirst classFirst ∧ ToldOnce .srg membersFirst membersFirstMapping ∧
      (∃ renames, membersFirstMapping.renames none none = .ok renames ∧
        ConflictFree membersFirstMapping.packages renames) ∧
      ∃ table table', (∀ reader, Table.ofFormat reader .srg .default membersFirst = .ok table ∧
          Table.ofFormat reader .srg .default classFirst = .ok table') ∧
        table.SameLookups table' ∧ table.same? table' = some true := by
  have hread : ofSrg membersFirst = .ok membersFirstMapping := by rfl
  have hshuffled : Shuffled .srg membersFirst classFirst :=
    ⟨by decide +kernel, by decide +kernel, by decide +kernel⟩
  have htold : AgreeOnNames srgNames (layout .srg membersFirst).blocks.flatten := by
    unfold AgreeOnNames
    decide +kernel
  have hkinds : ((membersFirstMapping.renamesBetween 0 1).map Entry.kind).Nodup := by decide +kernel
  have hfree : ConflictFree membersFirstMapping.packages (membersFirstMapping.renamesBetween 0 1) :=
    ⟨by decide +kernel, fun e he e' he' hkind _ => List.inj_on_of_nodup_map hkinds he he' hkind,
      fun e he e' he' hkind _ => List.inj_on_of_nodup_map hkinds he he' hkind⟩
  exact ⟨rfl, hread, hshuffled, htold, ⟨_, rfl, hfree⟩,
    ofFormat_shuffled rfl hread hshuffled htold
      (show membersFirstMapping.renames Step.default.source Step.default.target = .ok _ from rfl) hfree⟩

end Mapping

end Renaming
