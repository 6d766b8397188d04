import Renaming.Mapping.Srg
import Renaming.Proofs.Mapping.Renames
import Renaming.Proofs.Text.Lines

/-!
# `Proofs/Mapping/Notation` — one mapping in several notations

A reader goes through the lines of a file one by one, and numbers matter only for what it says when
it gives up. So what a reader makes of a file is a run (`Reads`): each line leads from one state to
the next, and lines that say nothing lead nowhere.

What different notations have in common is where their runs end. All of them put class after class
into a mapping, each with its members behind it (`Block.into`), and

> the table of a mapping depends on its notation and on the spelling of its packages no further than
> that there are namespaces to choose from (`table_ofItems`).
-/

set_option autoImplicit false

namespace Renaming

namespace Mapping

/-! ## Going through lines -/

section Reads

variable {σ : Type} {step : σ → Nat × Text → Except Fault σ} {s s' s'' : σ}

/-- The lines lead a reader from one state to another, whatever their numbers are. -/
inductive Reads (step : σ → Nat × Text → Except Fault σ) : σ → List Text → σ → Prop
  | nil (s : σ) : Reads step s [] s
  | row {s mid s' : σ} {line : Text} {lines : List Text} (hline : line.IsRow)
    (hstep : ∀ n, step s (n, line) = .ok mid) (h : Reads step mid lines s') :
    Reads step s (line :: lines) s'
  | silent {s s' : σ} {line : Text} {lines : List Text} (hline : line.Unbroken)
    (hcontent : line.hasContent = false) (h : Reads step s lines s') :
    Reads step s (line :: lines) s'

theorem Reads.unbroken {lines : List Text} (h : Reads step s lines s') :
    ∀ line ∈ lines, line.Unbroken := by
  induction h with
  | nil => exact fun _ h => absurd h List.not_mem_nil
  | row hline _ _ ih => exact List.forall_mem_cons.2 ⟨hline.unbroken, ih⟩
  | silent hline _ _ ih => exact List.forall_mem_cons.2 ⟨hline, ih⟩

theorem Reads.readLines_eq {lines : List Text} (h : Reads step s lines s') (n : Nat) :
    readLines step s (Text.contentFrom n lines) = .ok s' := by
  induction h generalizing n with
  | nil => rfl
  | @row s mid s' line lines hline hstep _ ih =>
    rw [Text.contentFrom, if_pos hline.content]
    show (step s (n, line) >>= fun mid => readLines step mid _) = _
    rw [hstep]
    exact ih (n + 1)
  | @silent s s' line lines _ hcontent _ ih =>
    rw [Text.contentFrom, if_neg (by simp [hcontent])]
    exact ih (n + 1)

/-- **A text is read as its lines are.** -/
theorem Reads.readLines_ofLines {lines : List Text} (h : Reads step s lines s') :
    readLines step s (Text.ofLines lines).contentLines = .ok s' := by
  rw [Text.contentLines_ofLines h.unbroken]
  exact h.readLines_eq 1

theorem contentLines_header {header : Text} (hheader : header.IsRow) {rows : List Text}
    (hrows : ∀ line ∈ rows, line.Unbroken) :
    (Text.ofLines (header :: rows)).contentLines = (1, header) :: Text.contentFrom 2 rows := by
  rw [Text.contentLines_ofLines (List.forall_mem_cons.2 ⟨hheader.unbroken, hrows⟩),
    Text.contentFrom, if_pos hheader.content]

theorem Reads.append {lines lines' : List Text} (h : Reads step s lines s')
    (h' : Reads step s' lines' s'') : Reads step s (lines ++ lines') s'' := by
  induction h with
  | nil => exact h'
  | row hline hstep _ ih => exact .row hline hstep (ih h')
  | silent hline hcontent _ ih => exact .silent hline hcontent (ih h')

/-! ## Lines that lead nowhere -/

/-- The second list is the first with guests in between. -/
inductive Padded (guest : Text → Prop) : List Text → List Text → Prop
  | nil : Padded guest [] []
  | row {line : Text} {base full : List Text} (h : Padded guest base full) :
    Padded guest (line :: base) (line :: full)
  | guest {line : Text} {base full : List Text} (hline : guest line) (h : Padded guest base full) :
    Padded guest base (line :: full)

variable {guest : Text → Prop} {base full : List Text}

theorem Padded.refl (guest : Text → Prop) (lines : List Text) : Padded guest lines lines := by
  induction lines with
  | nil => exact .nil
  | cons line lines ih => exact .row ih

theorem Padded.insertIdx {line : Text} (hline : guest line) (lines : List Text) (n : Nat) :
    Padded guest lines (lines.insertIdx n line) := by
  induction lines generalizing n with
  | nil =>
    cases n with
    | zero => exact .guest hline .nil
    | succ n => exact .nil
  | cons l lines ih =>
    cases n with
    | zero => exact .guest hline (Padded.refl guest _)
    | succ n => exact .row (ih n)

/-- **Guests that change nothing may stand anywhere.** -/
theorem Reads.padded (hguest : ∀ line, guest line → line.Unbroken ∧ ∀ s n, step s (n, line) = .ok s)
    (h : Reads step s base s') (hpadded : Padded guest base full) : Reads step s full s' := by
  induction hpadded generalizing s with
  | nil => exact h
  | row _ ih =>
    cases h with
    | row hline hstep h => exact .row hline hstep (ih h)
    | silent hline hcontent h => exact .silent hline hcontent (ih h)
  | @guest line base full hline _ ih =>
    obtain ⟨hunbroken, hstep⟩ := hguest line hline
    -- a guest that is blank or a comment is not even read
    cases hcontent : line.hasContent with
    | true => exact .row ⟨hcontent, hunbroken⟩ (hstep s) (ih h)
    | false => exact .silent hunbroken hcontent (ih h)

end Reads

/-! ## Rows of words -/

def wordRow (words : List Text) : Text := Text.joinWith ' ' words

theorem isRow_wordRow {w : Text} {ws : List Text} (hw : w.IsLead) (hws : ∀ v ∈ ws, v.IsField) :
    (wordRow (w :: ws)).IsRow := Text.isRow_joinWith hw (fun v hv => (hws v hv).unbroken) (by rfl)

theorem fields_wordRow {ws : List Text} (hws : ∀ w ∈ ws, w.IsField) :
    Text.fields (wordRow ws) = ws := Text.fields_joinWith hws

/-! ## Classes with their members -/

/-- A class as it stands in a file, with its members behind it. -/
structure Block where
  first : Text
  names : List (Option Text)
  members : List (MemberKind × MemberRow)

/-- The mapping with a class row added that has no comment. -/
def enter (m : Mapping) (first : Text) (names : List (Option Text)) : Mapping :=
  m.onOwner first fun c => { c with names := names, declared := true, comment := c.comment }

theorem declare_eq_enter (m : Mapping) {first : Text} (hfirst : first ≠ [])
    (names : List (Option Text)) :
    m.declare (some first :: names) none = .ok (m.enter first (some first :: names), first) := by
  cases first with
  | nil => exact absurd rfl hfirst
  | cons c r => rfl

def addMember (m : Mapping) (owner : Text) (p : MemberKind × MemberRow) : Mapping :=
  match p.1 with
  | .field => m.addField owner p.2
  | .method => m.addMethod owner p.2

/-- The mapping with a class and its members added. -/
def Block.into (m : Mapping) (b : Block) : Mapping :=
  b.members.foldl (fun m p => m.addMember b.first p) (m.enter b.first b.names)

/-- What stands at the top of a file: a package, or a class with its members. -/
inductive Item where
  | package (source target : Text)
  | block (b : Block)

def Item.into (m : Mapping) : Item → Mapping
  | package source target => m.addPackage source target
  | block b => b.into m

def Item.package? : Item → Option (Text × Text)
  | package source target => some (source, target)
  | block _ => none

def Item.block? : Item → Option Block
  | package _ _ => none
  | block b => some b

def ofItems (format : Format) (namespaces : List Text) (items : List Item) : Mapping :=
  items.foldl Item.into (ofNamespaces format namespaces)

/-! ## Entering blocks -/

section Enters

variable {σ : Type} {step : σ → Nat × Text → Except Fault σ} {view : σ → Mapping}
  {inv : σ → Prop}

/-- From every state of this kind the lines lead to another, and change the mapping so far by
`f`. -/
def Enters (step : σ → Nat × Text → Except Fault σ) (view : σ → Mapping) (inv : σ → Prop)
    (lines : List Text) (f : Mapping → Mapping) : Prop :=
  ∀ s, inv s → ∃ s', Reads step s lines s' ∧ inv s' ∧ view s' = f (view s)

theorem Enters.append {lines lines' : List Text} {f g : Mapping → Mapping}
    (h : Enters step view inv lines f) (h' : Enters step view inv lines' g) :
    Enters step view inv (lines ++ lines') fun m => g (f m) := by
  intro s hs
  obtain ⟨mid, hreads, hmid, hview⟩ := h s hs
  obtain ⟨s', hreads', hs', hview'⟩ := h' mid hmid
  refine ⟨s', hreads.append hreads', hs', ?_⟩
  rw [hview', hview]

theorem Enters.row {line : Text} {f : Mapping → Mapping} (hline : line.IsRow)
    (hstep : ∀ s, inv s → ∃ s', (∀ n, step s (n, line) = .ok s') ∧ inv s' ∧ view s' = f (view s)) :
    Enters step view inv [line] f := by
  intro s hs
  obtain ⟨s', hrow, hs', hview⟩ := hstep s hs
  exact ⟨s', .row hline hrow (.nil s'), hs', hview⟩

/-- **The run of a list of items**, each of which is written as lines of its own. -/
theorem Enters.flatMap {α : Type} {write : α → List Text} {into : Mapping → α → Mapping}
    {xs : List α} (h : ∀ x ∈ xs, Enters step view inv (write x) fun m => into m x) :
    Enters step view inv (xs.flatMap write) fun m => xs.foldl into m := by
  induction xs with
  | nil => exact fun s hs => ⟨s, .nil s, hs, rfl⟩
  | cons x xs ih =>
    rw [List.forall_mem_cons] at h
    exact h.1.append (ih h.2)

/-- The run of a list of items that are rows. -/
theorem Enters.map {α : Type} {line : α → Text} {into : Mapping → α → Mapping} {xs : List α}
    (h : ∀ x ∈ xs, Enters step view inv [line x] fun m => into m x) :
    Enters step view inv (xs.map line) fun m => xs.foldl into m := by
  rw [List.map_eq_flatMap]
  exact Enters.flatMap h

/-- **The run of a class**: its row leads to a state in which its members can be read. -/
theorem enters_block {α : Type} {first : Text} {names : List (Option Text)} {members : List α}
    {row : α → MemberKind × MemberRow} (inner : σ → Prop) {classLine : Text} {memberLine : α → Text}
    (hline : classLine.IsRow)
    (hclass : ∀ s, inv s → ∃ s', (∀ n, step s (n, classLine) = .ok s') ∧ inner s' ∧
      view s' = (view s).enter first names)
    (hmembers : ∀ x ∈ members, Enters step view inner [memberLine x] fun m =>
      m.addMember first (row x))
    (hinner : ∀ s, inner s → inv s) :
    Enters step view inv (classLine :: members.map memberLine) fun m =>
      Block.into m ⟨first, names, members.map row⟩ := by
  intro s hs
  obtain ⟨mid, hrow, hmid, hview⟩ := hclass s hs
  obtain ⟨s', hreads, hs', hview'⟩ := Enters.map hmembers mid hmid
  refine ⟨s', .row hline hrow hreads, hinner s' hs', ?_⟩
  rw [hview', hview]
  exact List.foldl_map.symm

/-- **A file is read as the mapping of its items**, if a reader gets through each of them. -/
theorem exists_reads_of_enters {α : Type} {write : α → List Text} {item : α → Item} {xs : List α}
    (h : ∀ x ∈ xs, Enters step view inv (write x) fun m => (item x).into m) {start : σ}
    (hstart : inv start) {format : Format} {namespaces : List Text}
    (hview : view start = ofNamespaces format namespaces) :
    ∃ s', Reads step start (xs.flatMap write) s' ∧
      view s' = ofItems format namespaces (xs.map item) := by
  obtain ⟨s', hreads, -, hview'⟩ := Enters.flatMap h start hstart
  refine ⟨s', hreads, ?_⟩
  rw [hview', hview]
  exact List.foldl_map.symm

end Enters

/-! ## What a notation decides -/

/-- The mapping as it might have been read from another notation and with other packages. -/
def recast (m : Mapping) (format : Format) (packages : List (Text × Text)) : Mapping :=
  { m with format := format, packages := packages }

section Recast

variable (m : Mapping) (format : Format) (packages : List (Text × Text))

theorem onOwner_recast (first : Text) (f : ClassRow → ClassRow) :
    (m.recast format packages).onOwner first f = (m.onOwner first f).recast format packages := by
  have howner : (m.recast format packages).withOwner first =
      (m.withOwner first).recast format packages := by
    show (if m.classes.contains first then _ else _) = _
    unfold withOwner
    split <;> rfl
  unfold onOwner
  rw [howner]
  rfl

theorem addMember_recast (owner : Text) (p : MemberKind × MemberRow) :
    (m.recast format packages).addMember owner p = (m.addMember owner p).recast format packages := by
  obtain ⟨kind, row⟩ := p
  cases kind <;> exact onOwner_recast m format packages owner _

theorem into_recast (b : Block) :
    b.into (m.recast format packages) = (b.into m).recast format packages := by
  unfold Block.into enter
  rw [onOwner_recast]
  generalize m.onOwner b.first _ = m'
  apply List.foldl_hom (fun m : Mapping => m.recast format packages)
  intro m p
  exact addMember_recast m format packages b.first p

theorem foldl_into_recast (blocks : List Block) :
    blocks.foldl Block.into (m.recast format packages) =
      (blocks.foldl Block.into m).recast format packages := by
  apply List.foldl_hom (fun m : Mapping => m.recast format packages)
  intro m b
  exact into_recast m format packages b

end Recast

/-- Packages and classes do not meet in a mapping. -/
theorem foldl_item_into (items : List Item) (m : Mapping) :
    items.foldl Item.into m = ((items.filterMap Item.block?).foldl Block.into m).recast m.format
      (m.packages ++ items.filterMap Item.package?) := by
  induction items generalizing m with
  | nil =>
    show m = m.recast m.format (m.packages ++ [])
    rw [List.append_nil]
    rfl
  | cons item items ih =>
    rw [List.foldl_cons, ih]
    cases item with
    | package source target =>
      have hpackage : m.addPackage source target =
          m.recast m.format (m.packages ++ [(source, target)]) := rfl
      show ((items.filterMap Item.block?).foldl Block.into (m.addPackage source target)).recast
        m.format ((m.packages ++ [(source, target)]) ++ _) = _
      rw [hpackage, foldl_into_recast, List.append_assoc]
      rfl
    | block b =>
      -- a class leaves notation and packages as they are
      have hsame : b.into m = (b.into m).recast m.format m.packages :=
        into_recast m m.format m.packages b
      show ((items.filterMap Item.block?).foldl Block.into (b.into m)).recast
        (b.into m).format ((b.into m).packages ++ items.filterMap Item.package?) = _
      rw [congrArg Mapping.format hsame, congrArg Mapping.packages hsame]
      rfl

section Items

variable (format : Format) (namespaces : List Text) (items : List Item)

theorem ofItems_eq : ofItems format namespaces items =
    ((items.filterMap Item.block?).foldl Block.into (ofNamespaces .srg namespaces)).recast format
      (items.filterMap Item.package?) := by
  have hstart : ofNamespaces format namespaces =
      (ofNamespaces .srg namespaces).recast format [] := rfl
  rw [ofItems, foldl_item_into, hstart, foldl_into_recast]
  rfl

theorem packages_ofItems :
    (ofItems format namespaces items).packages = items.filterMap Item.package? := by
  rw [ofItems_eq]
  rfl

/-- Whether there are namespaces to choose from is decided by the notation. -/
theorem isTiered_ofItems :
    (ofItems format namespaces items).isTiered = (ofNamespaces format namespaces).isTiered := by
  rw [ofItems_eq]
  rfl

theorem namespaces_onOwner (m : Mapping) (first : Text) (f : ClassRow → ClassRow) :
    (m.onOwner first f).namespaces = m.namespaces := by
  show (m.withOwner first).namespaces = m.namespaces
  unfold withOwner
  split <;> rfl

theorem namespaces_into (m : Mapping) (b : Block) : (b.into m).namespaces = m.namespaces := by
  apply List.foldlRecOn (motive := fun m' : Mapping => m'.namespaces = m.namespaces) b.members
  · exact namespaces_onOwner m b.first _
  · intro m' hm p _
    obtain ⟨kind, row⟩ := p
    cases kind <;> exact (namespaces_onOwner m' b.first _).trans hm

theorem namespaces_ofItems : (ofItems format namespaces items).namespaces = namespaces := by
  apply List.foldlRecOn (motive := fun m : Mapping => m.namespaces = namespaces) items
  · rfl
  · intro m hm item _
    cases item with
    | package source target => exact hm
    | block b => exact (namespaces_into m b).trans hm

end Items

/-- Where there are namespaces, or none to choose from, the tiers are all that is chosen. -/
theorem table_eq_of_namespaces {m : Mapping} (h : m.isTiered = true → m.namespaces ≠ [])
    (source target : Option Text) :
    m.table source target = (fun tiers => m.tableBetween tiers.1 tiers.2) <$> m.tiers source target := by
  have hnot : (m.isTiered && m.namespaces.isEmpty) = false := by
    cases htiered : m.isTiered with
    | false => rfl
    | true => simpa using h htiered
  unfold table
  cases m.tiers source target with
  | error f => rfl
  | ok tiers =>
    show (if (m.isTiered && m.namespaces.isEmpty) = true then _ else _) = _
    rw [hnot]
    rfl

theorem tableBetween_recast (m : Mapping) (format : Format) {packages : List (Text × Text)}
    (hpackages : (m.recast format packages).packageRenames = m.packageRenames) (s t : Nat) :
    (m.recast format packages).tableBetween s t = m.tableBetween s t := by
  rw [tableBetween_eq, tableBetween_eq, hpackages]
  rfl

/-- **Two notations that hold the same classes and packages have the same table.** The order
between packages and classes does not count, nor does the spelling of packages. -/
theorem table_ofItems {format format' : Format} {namespaces : List Text} {items items' : List Item}
    (htiered : (ofNamespaces format' namespaces).isTiered =
      (ofNamespaces format namespaces).isTiered)
    (hnamespaces : namespaces ≠ [])
    (hblocks : items'.filterMap Item.block? = items.filterMap Item.block?)
    (hpackages : (items'.filterMap Item.package?).map
        (fun p => (Package.canonical p.1, Package.canonical p.2)) =
      (items.filterMap Item.package?).map fun p => (Package.canonical p.1, Package.canonical p.2))
    (source target : Option Text) :
    (ofItems format' namespaces items').table source target =
      (ofItems format namespaces items).table source target := by
  have hnames := namespaces_ofItems format namespaces items
  have hnames' := namespaces_ofItems format' namespaces items'
  have htiers : (ofItems format' namespaces items').tiers source target =
      (ofItems format namespaces items).tiers source target := by
    unfold tiers tierIndex
    rw [hnames, hnames', isTiered_ofItems, isTiered_ofItems, htiered]
  have hrecast : ofItems format' namespaces items' =
      (ofItems format namespaces items).recast format' (items'.filterMap Item.package?) := by
    rw [ofItems_eq format', hblocks, ofItems_eq format]
    rfl
  have hbetween : ∀ s t, (ofItems format' namespaces items').tableBetween s t =
      (ofItems format namespaces items).tableBetween s t := by
    intro s t
    rw [hrecast]
    apply tableBetween_recast
    show OrderedMap.ofList (List.map _ _) = OrderedMap.ofList (List.map _ _)
    rw [packages_ofItems]
    exact congrArg OrderedMap.ofList hpackages
  rw [table_eq_of_namespaces (by rw [hnames']; exact fun _ => hnamespaces),
    table_eq_of_namespaces (by rw [hnames]; exact fun _ => hnamespaces), htiers]
  simp only [hbetween]

end Mapping

end Renaming
