import Renaming.Proofs.Ending
import Renaming.Proofs.Mapping.Effect

/-!
# `Proofs/Mapping/Blocks` — files as lists of blocks

A file is a list of blocks: a row that stands for itself, or the row of a class with the rows below
it. What the rows below a class do depends on where the reader stands (its cursor), never on what
was read before, so that a block has one effect wherever it stands (`exists_change`), and

> what is read of a file is what the effects of its blocks make of it (`exists_effects`,
> `leads_blocks`).
-/

set_option autoImplicit false

namespace Renaming

namespace Mapping

/-! ## Cutting lines into blocks -/

/-- The lines in front of the first block, and the blocks. -/
def blocksFrom (starts : Text → Bool) : List Text → List Text × List (List Text)
  | [] => ([], [])
  | line :: lines =>
    let rest := blocksFrom starts lines
    if starts line then ([], (line :: rest.1) :: rest.2) else (line :: rest.1, rest.2)

section BlocksFrom

variable (starts : Text → Bool)

theorem append_flatten_blocksFrom (lines : List Text) :
    (blocksFrom starts lines).1 ++ (blocksFrom starts lines).2.flatten = lines := by
  induction lines with
  | nil => rfl
  | cons line lines ih =>
    rw [blocksFrom]
    split
    · exact congrArg (line :: ·) ih
    · exact congrArg (line :: ·) ih

theorem starts_of_mem_front {lines : List Text} {line : Text}
    (h : line ∈ (blocksFrom starts lines).1) : starts line = false := by
  induction lines with
  | nil => cases h
  | cons l lines ih =>
    rw [blocksFrom] at h
    split at h
    · cases h
    · rename_i hstarts
      rcases List.mem_cons.1 h with rfl | h
      · exact Bool.eq_false_iff.2 hstarts
      · exact ih h

/-- A block starts with a row that starts one, and no other does. -/
theorem exists_cons_of_mem_blocks {lines block : List Text}
    (h : block ∈ (blocksFrom starts lines).2) :
    ∃ top inner, block = top :: inner ∧ starts top = true ∧ ∀ line ∈ inner, starts line = false := by
  induction lines with
  | nil => cases h
  | cons l lines ih =>
    rw [blocksFrom] at h
    split at h
    · rename_i hstarts
      rcases List.mem_cons.1 h with rfl | h
      · exact ⟨l, _, rfl, hstarts, fun line hline => starts_of_mem_front starts hline⟩
      · exact ih h
    · exact ih h

end BlocksFrom

/-! ## Runs over lines -/

section Leads

variable {σ : Type} {step : σ → Nat × Text → Except Fault σ}

/-- Whatever their numbers are, the lines lead from every state of a kind to a state that is related
to it. -/
def Leads (step : σ → Nat × Text → Except Fault σ) (start : σ → Prop) (lines : List Text)
    (result : σ → σ → Prop) : Prop :=
  ∀ s, start s → ∀ rows : List (Nat × Text), rows.map Prod.snd = lines →
    ∃ s', readLines step s rows = .ok s' ∧ result s s'

variable {start : σ → Prop} {result : σ → σ → Prop}

theorem readLines_append (s : σ) (rows rows' : List (Nat × Text)) :
    readLines step s (rows ++ rows') = readLines step s rows >>= fun mid => readLines step mid rows' :=
  List.foldlM_append

theorem readLines_cons_eq_ok {s s' : σ} {row : Nat × Text} {rows : List (Nat × Text)}
    (h : readLines step s (row :: rows) = .ok s') :
    ∃ mid, step s row = .ok mid ∧ readLines step mid rows = .ok s' := by
  unfold readLines at h
  rw [List.foldlM_cons] at h
  exact exists_of_bind_eq_ok h

theorem readLines_append_eq_ok {s s' : σ} {rows rows' : List (Nat × Text)}
    (h : readLines step s (rows ++ rows') = .ok s') :
    ∃ mid, readLines step s rows = .ok mid ∧ readLines step mid rows' = .ok s' := by
  rw [readLines_append] at h
  exact exists_of_bind_eq_ok h

theorem Leads.mono {lines : List Text} {result' : σ → σ → Prop} (h : Leads step start lines result)
    (hmono : ∀ s, start s → ∀ s', result s s' → result' s s') : Leads step start lines result' := by
  intro s hs rows hrows
  obtain ⟨s', hread, hresult⟩ := h s hs rows hrows
  exact ⟨s', hread, hmono s hs s' hresult⟩

theorem Leads.nil (h : ∀ s, start s → result s s) : Leads step start [] result := by
  intro s hs rows hrows
  rw [List.map_eq_nil_iff.1 hrows]
  exact ⟨s, rfl, h s hs⟩

theorem Leads.row {line : Text}
    (h : ∀ s, start s → ∀ n, ∃ s', step s (n, line) = .ok s' ∧ result s s') :
    Leads step start [line] result := by
  intro s hs rows hrows
  obtain ⟨⟨n, line'⟩, rest, rfl, rfl, hrest⟩ := List.map_eq_cons_iff.1 hrows
  obtain rfl := List.map_eq_nil_iff.1 hrest
  obtain ⟨s', hstep, hresult⟩ := h s hs n
  refine ⟨s', ?_, hresult⟩
  show (step s (n, line') >>= pure) = _
  rw [hstep]
  rfl

theorem Leads.append {lines lines' : List Text} {mid : σ → σ → Prop}
    (h : Leads step start lines mid)
    (h' : ∀ s, start s → Leads step (mid s) lines' fun _ s' => result s s') :
    Leads step start (lines ++ lines') result := by
  intro s hs rows hrows
  obtain ⟨rows₁, rows₂, rfl, hrows₁, hrows₂⟩ := List.map_eq_append_iff.1 hrows
  obtain ⟨s₁, hread₁, hmid⟩ := h s hs rows₁ hrows₁
  obtain ⟨s', hread₂, hresult⟩ := h' s hs s₁ hmid rows₂ hrows₂
  refine ⟨s', ?_, hresult⟩
  rw [readLines_append, hread₁]
  exact hread₂

/-- **The rows in front of the first class** keep a reader in a quiet state, and their numbers do
not count. -/
theorem readLines_front {quiet : σ → Prop} {front : List Text}
    (hfront : ∀ line ∈ front, ∀ s, quiet s → ∀ n s', step s (n, line) = .ok s' →
      quiet s' ∧ ∀ n', step s (n', line) = .ok s')
    {s s' : σ} {rows : List (Nat × Text)} (hrows : rows.map Prod.snd = front) (hs : quiet s)
    (hread : readLines step s rows = .ok s') :
    quiet s' ∧ ∀ rows' : List (Nat × Text), rows'.map Prod.snd = front →
      readLines step s rows' = .ok s' := by
  induction front generalizing s rows with
  | nil =>
    rw [List.map_eq_nil_iff.1 hrows] at hread
    cases hread
    exact ⟨hs, fun rows' hrows' => by rw [List.map_eq_nil_iff.1 hrows']; rfl⟩
  | cons line front ih =>
    rw [List.forall_mem_cons] at hfront
    obtain ⟨⟨n, _⟩, rest, rfl, rfl, hrest⟩ := List.map_eq_cons_iff.1 hrows
    obtain ⟨mid, hstep, hread⟩ := readLines_cons_eq_ok hread
    obtain ⟨hmid, hnumber⟩ := hfront.1 s hs n mid hstep
    obtain ⟨hs', hall⟩ := ih hfront.2 hrest hmid hread
    refine ⟨hs', fun rows' hrows' => ?_⟩
    obtain ⟨⟨n', _⟩, rest', rfl, rfl, hrest'⟩ := List.map_eq_cons_iff.1 hrows'
    show (step s (n', _) >>= fun mid => readLines step mid rest') = _
    rw [hnumber n']
    exact hall rest' hrest'

end Leads

/-! ## The effects of blocks -/

section Effects

variable {σ ν ε : Type} {step : σ → Nat × Text → Except Fault σ} {frame : σ → Prop} {view : σ → ν}
  {into : ν → ε → ν}

/-- Wherever it stands, the block has this effect on what is read. -/
def Does (step : σ → Nat × Text → Except Fault σ) (frame : σ → Prop) (view : σ → ν)
    (into : ν → ε → ν) (block : List Text) (e : ε) : Prop :=
  Leads step frame block fun s s' => frame s' ∧ view s' = into (view s) e

/-- **Blocks that have effects are read, and do what their effects do.** -/
theorem leads_blocks {blocks : List (List Text)} {es : List ε}
    (h : List.Forall₂ (Does step frame view into) blocks es) :
    Leads step frame blocks.flatten fun s s' => frame s' ∧ view s' = es.foldl into (view s) := by
  induction h with
  | nil => exact Leads.nil fun s hs => ⟨hs, rfl⟩
  | cons hblock _ ih =>
    apply Leads.append hblock
    rintro s hs mid ⟨hmid, hview⟩ rows hrows
    obtain ⟨s', hread, hs', hview'⟩ := ih mid hmid rows hrows
    refine ⟨s', hread, hs', ?_⟩
    rw [hview', hview]
    rfl

/-- **A file that is read has effects**, one for each of its blocks. -/
theorem exists_effects {p : List Text → ε → Prop} {blocks : List (List Text)}
    (hblocks : ∀ block ∈ blocks, ∀ s s' rows, rows.map Prod.snd = block → frame s →
      readLines step s rows = .ok s' → ∃ e, p block e ∧ Does step frame view into block e)
    {s s' : σ} {rows : List (Nat × Text)} (hrows : rows.map Prod.snd = blocks.flatten)
    (hs : frame s) (hread : readLines step s rows = .ok s') :
    ∃ es, List.Forall₂ (fun block e => p block e ∧ Does step frame view into block e) blocks es ∧
      view s' = es.foldl into (view s) := by
  induction blocks generalizing s rows with
  | nil =>
    rw [List.map_eq_nil_iff.1 hrows] at hread
    cases hread
    exact ⟨[], .nil, rfl⟩
  | cons block blocks ih =>
    rw [List.forall_mem_cons] at hblocks
    rw [List.flatten_cons] at hrows
    obtain ⟨rows₁, rows₂, rfl, hrows₁, hrows₂⟩ := List.map_eq_append_iff.1 hrows
    obtain ⟨mid, hread₁, hread₂⟩ := readLines_append_eq_ok hread
    obtain ⟨e, hp, hdoes⟩ := hblocks.1 s mid rows₁ hrows₁ hs hread₁
    obtain ⟨mid', hread', hmid, hview⟩ := hdoes s hs rows₁ hrows₁
    rw [hread₁] at hread'
    cases hread'
    obtain ⟨es, hes, hview'⟩ := ih hblocks.2 hrows₂ hmid hread₂
    refine ⟨e :: es, .cons ⟨hp, hdoes⟩ hes, ?_⟩
    rw [hview', hview]
    rfl

/-- **A file that is read can be read with its blocks in another order.** Its effects are in that
order, too. What the rows in front of the first block leave behind frames the blocks. -/
theorem exists_shuffled (p : List Text → ε → Prop) (quiet : σ → Prop) (frame : σ → σ → Prop)
    (hframe : ∀ s, frame s s) {front : List Text} {blocks blocks' : List (List Text)}
    (hperm : blocks.Perm blocks')
    (hfront : ∀ line ∈ front, ∀ s, quiet s → ∀ n s', step s (n, line) = .ok s' →
      quiet s' ∧ ∀ n', step s (n', line) = .ok s')
    (hblocks : ∀ s₀, ∀ block ∈ blocks, ∀ s s' rows, rows.map Prod.snd = block → frame s₀ s →
      readLines step s rows = .ok s' → ∃ e, p block e ∧ Does step (frame s₀) view into block e)
    {s s' : σ} {rows : List (Nat × Text)} (hrows : rows.map Prod.snd = front ++ blocks.flatten)
    (hs : quiet s) (hread : readLines step s rows = .ok s') :
    ∃ s₀ es es', quiet s₀ ∧ es.Perm es' ∧ List.Forall₂ p blocks es ∧
      view s' = es.foldl into (view s₀) ∧
      ∀ rows' : List (Nat × Text), rows'.map Prod.snd = front ++ blocks'.flatten →
        ∃ s', readLines step s rows' = .ok s' ∧ view s' = es'.foldl into (view s₀) := by
  obtain ⟨rows₁, rows₂, rfl, hrows₁, hrows₂⟩ := List.map_eq_append_iff.1 hrows
  obtain ⟨s₀, hread₁, hread₂⟩ := readLines_append_eq_ok hread
  obtain ⟨hs₀, hall⟩ := readLines_front hfront hrows₁ hs hread₁
  obtain ⟨es, hes, hview⟩ := exists_effects (hblocks s₀) hrows₂ (hframe s₀) hread₂
  obtain ⟨es', hes', hperm'⟩ := List.perm_comp_forall₂ hperm.symm hes
  refine ⟨s₀, es, es', hs₀, hperm'.symm, hes.imp fun _ _ h => h.1, hview, fun rows' hrows' => ?_⟩
  obtain ⟨rows₁', rows₂', rfl, hrows₁', hrows₂'⟩ := List.map_eq_append_iff.1 hrows'
  obtain ⟨s'', hread', -, hview'⟩ :=
    leads_blocks (hes'.imp fun _ _ h => h.2) s₀ (hframe s₀) rows₂' hrows₂'
  refine ⟨s'', ?_, hview'⟩
  rw [readLines_append, hall rows₁' hrows₁']
  exact hread'

end Effects

/-! ## The rows below a class -/

section Inner

variable {σ κ ρ : Type} {step : σ → Nat × Text → Except Fault σ} {mapping : σ → Mapping}
  {cursor : σ → κ} {rest : σ → ρ} {current : κ → Option Text}

/-- With the cursor at one place, the lines change a class that is there, lead the cursor to another
place, and leave the rest. -/
def Changes (step : σ → Nat × Text → Except Fault σ) (mapping : σ → Mapping) (cursor : σ → κ)
    (rest : σ → ρ) (lines : List Text) (k k' : κ) (first : Text)
    (change : ClassRow → ClassRow) : Prop :=
  Leads step (fun s => cursor s = k ∧ first ∈ (mapping s).classes.keys) lines fun s s' =>
    cursor s' = k' ∧ rest s' = rest s ∧ mapping s' = (mapping s).onOwner first change

theorem onOwner_id {m : Mapping} {first : Text} (h : first ∈ m.classes.keys) :
    m.onOwner first (fun c => c) = m := by
  apply ext_classes
  · exact onOwner_eq m first _
  · rw [keys_onOwner, if_pos h]
  · intro first'
    obtain ⟨c, hc⟩ := Option.isSome_iff_exists.1 (OrderedMap.mem_keys_iff.1 h)
    rw [get?_onOwner, hc]
    split
    · rename_i heq
      rw [heq, hc]
      rfl
    · rfl

theorem mem_keys_onOwner (m : Mapping) (first : Text) (change : ClassRow → ClassRow) :
    first ∈ (m.onOwner first change).classes.keys := by
  rw [OrderedMap.mem_keys_iff, get?_onOwner, if_pos rfl]
  rfl

/-- The change is one of members and comments. -/
structure Below (change : ClassRow → ClassRow) : Prop where
  names : ∀ c, (change c).names = c.names
  declared : ∀ c, (change c).declared = c.declared

/-- In a class, the row changes what is below this class, as the place of the cursor tells. -/
def StaysBelow (step : σ → Nat × Text → Except Fault σ) (mapping : σ → Mapping) (cursor : σ → κ)
    (rest : σ → ρ) (current : κ → Option Text) (line : Text) : Prop :=
  ∀ s n s' first, current (cursor s) = some first → step s (n, line) = .ok s' →
    current (cursor s') = some first ∧ ∃ change, Below change ∧
      Changes step mapping cursor rest [line] (cursor s) (cursor s') first change

/-- **The rows below a class change what is below this class.** -/
theorem exists_change {rows : List (Nat × Text)}
    (hrows : ∀ row ∈ rows, StaysBelow step mapping cursor rest current row.2) {s s' : σ} {first : Text}
    (hcurrent : current (cursor s) = some first) (hread : readLines step s rows = .ok s') :
    ∃ change, Below change ∧
      Changes step mapping cursor rest (rows.map Prod.snd) (cursor s) (cursor s') first change := by
  induction rows generalizing s with
  | nil =>
    cases hread
    refine ⟨fun c => c, ⟨fun _ => rfl, fun _ => rfl⟩, Leads.nil fun s₂ hs₂ => ?_⟩
    exact ⟨hs₂.1, rfl, (onOwner_id hs₂.2).symm⟩
  | cons row rows ih =>
    rw [List.forall_mem_cons] at hrows
    obtain ⟨mid, hstep, hread⟩ := readLines_cons_eq_ok hread
    obtain ⟨hmid, change, hbelow, hchange⟩ := hrows.1 s row.1 mid first hcurrent hstep
    obtain ⟨change', hbelow', hchange'⟩ := ih hrows.2 hmid hread
    refine ⟨fun c => change' (change c), ⟨fun c => (hbelow'.names _).trans (hbelow.names c),
      fun c => (hbelow'.declared _).trans (hbelow.declared c)⟩, ?_⟩
    apply Leads.append hchange
    rintro s₂ - mid₂ ⟨hcursor, hrest, hmapping⟩ rows₂ hrows₂
    have hkeys : first ∈ (mapping mid₂).classes.keys := by
      rw [hmapping]
      exact mem_keys_onOwner _ _ _
    obtain ⟨s₂', hread₂, hcursor', hrest', hmapping'⟩ := hchange' mid₂ ⟨hcursor, hkeys⟩ rows₂ hrows₂
    refine ⟨s₂', hread₂, hcursor', hrest'.trans hrest, ?_⟩
    rw [hmapping', hmapping, onOwner_onOwner]

/-- **A class with the rows below it is changed at once.** -/
theorem exists_block (current : κ → Option Text) (frame : σ → Prop) (next : ρ → ρ)
    {top : Text} {k : κ} {first : Text} {names : List (Option Text)} (hk : current k = some first)
    (htop : ∀ s, frame s → ∀ n, ∃ s', step s (n, top) = .ok s' ∧ cursor s' = k ∧
      rest s' = next (rest s) ∧ mapping s' = (mapping s).enter first names)
    {rows : List (Nat × Text)} (hrows : ∀ row ∈ rows, StaysBelow step mapping cursor rest current row.2)
    {s s' : σ} {n : Nat} (hs : frame s) (hread : readLines step s ((n, top) :: rows) = .ok s') :
    ∃ change : ClassRow → ClassRow, (∀ c, (change c).names = names ∧ (change c).declared = true) ∧
      Leads step frame (top :: rows.map Prod.snd) fun s s' =>
        rest s' = next (rest s) ∧ mapping s' = (mapping s).onOwner first change := by
  obtain ⟨mid, hstep, hread⟩ := readLines_cons_eq_ok hread
  obtain ⟨mid', hstep', hcursor, -, -⟩ := htop s hs n
  rw [hstep] at hstep'
  cases hstep'
  obtain ⟨change, hbelow, hchange⟩ := exists_change hrows (hcursor ▸ hk) hread
  rw [hcursor] at hchange
  refine ⟨fun c => change { c with names := names, declared := true, comment := c.comment },
    fun c => ⟨hbelow.names _, hbelow.declared _⟩, ?_⟩
  apply Leads.append (Leads.row htop)
  rintro s₂ - mid₂ ⟨hcursor₂, hrest₂, hmapping₂⟩ rows₂ hrows₂
  have hkeys : first ∈ (mapping mid₂).classes.keys := by
    rw [hmapping₂]
    exact mem_keys_onOwner _ _ _
  obtain ⟨s₂', hread₂, -, hrest₂', hmapping₂'⟩ := hchange mid₂ ⟨hcursor₂, hkeys⟩ rows₂ hrows₂
  refine ⟨s₂', hread₂, hrest₂'.trans hrest₂, ?_⟩
  rw [hmapping₂', hmapping₂]
  exact onOwner_onOwner _ _ _ _

end Inner

end Mapping

end Renaming
