import Renaming.Mapping.Tiny
import Renaming.Proofs.Mapping.Blocks
import Renaming.Proofs.Mapping.Rectangular

/-!
# `Proofs/Mapping/RowEffect` — rows that stand for themselves

In SRG, in CSRG and in the first version of Tiny every row says by itself what it is about. A row
adds a package, it is the row of a class, or it adds a member to a class that it mentions; an SRG
row also says what the owner of a member is called on the other side, which counts only until the
class has that name.

> Two rows can change places if they agree on the names of a class that both of them name
> (`RowEffect.apart`).
-/

set_option autoImplicit false

namespace Renaming

theorem ClassRow.mem_rows_addRow {kind kind' : MemberKind} {row row' : MemberRow} {c : ClassRow} :
    row' ∈ MemberKind.rows kind' (c.addRow kind row) ↔
      row' ∈ MemberKind.rows kind' c ∨ kind = kind' ∧ row' = row := by
  cases kind <;> cases kind' <;> simp [ClassRow.addRow, MemberKind.rows]

theorem ClassRow.Alike.addRow {c c' : ClassRow} (h : c.Alike c') (kind : MemberKind)
    (row : MemberRow) : (c.addRow kind row).Alike (c'.addRow kind row) := by
  constructor
  · cases kind <;> exact h.names
  · cases kind <;> exact h.declared
  · cases kind <;> exact h.comment
  · intro kind' row'
    rw [ClassRow.mem_rows_addRow, ClassRow.mem_rows_addRow, h.rows]

namespace Mapping

/-! ## What a row does -/

/-- What a row says: a package, the names of a class, or a member of a class, perhaps with what the
class is called on the other side. -/
inductive RowEffect where
  | package (source target : Text)
  | named (first : Text) (names : List (Option Text))
  | member (owner : Text) (target : Option Text) (kind : MemberKind) (row : MemberRow)

/-- The names with a target name filled in, if there is one to fill in. -/
def fillTarget (target : Option Text) (names : List (Option Text)) : List (Option Text) :=
  match target with
  | none => names
  | some target => nameIfMissing names 1 target

namespace RowEffect

def effect : RowEffect → Effect
  | package source target => .package source target
  | named first names => .onClass first fun c =>
    { c with names := names, declared := true, comment := c.comment }
  | member owner target kind row => .onClass owner fun c =>
    ClassRow.addRow kind row { c with names := fillTarget target c.names }

def names? : RowEffect → Option (List (Option Text))
  | named _ names => some names
  | member owner (some target) _ _ => some (twoNames owner target)
  | package _ _ | member _ none _ _ => none

/-- A class row has the first name of its class. -/
def IsNamed : RowEffect → Prop
  | named first names => names.head? = some (some first)
  | package _ _ | member _ _ _ _ => True

/-- The rows do not give one class different names. -/
def Agrees (e e' : RowEffect) : Prop :=
  ∀ names ∈ e.names?, ∀ names' ∈ e'.names?, names.head? = names'.head? → names = names'

theorem respects (e : RowEffect) : e.effect.Respects := by
  cases e with
  | package => exact trivial
  | named first names =>
    intro c c' h
    refine ⟨rfl, rfl, h.comment, fun kind row => ?_⟩
    exact ClassRow.mem_rows_named.trans ((h.rows kind row).trans ClassRow.mem_rows_named.symm)
  | member owner target kind row =>
    intro c c' h
    apply ClassRow.Alike.addRow
    refine ⟨congrArg (fillTarget target) h.names, h.declared, h.comment, fun kind row => ?_⟩
    exact ClassRow.mem_rows_named.trans ((h.rows kind row).trans ClassRow.mem_rows_named.symm)

/-! ## Rows that change places -/

theorem nameIfMissing_twoNames (source target : Text) :
    nameIfMissing (twoNames source target) 1 target = twoNames source target := by
  unfold nameIfMissing
  split <;> rfl

theorem fillTarget_comm {target target' : Option Text}
    (h : ∀ t ∈ target, ∀ t' ∈ target', t = t') (names : List (Option Text)) :
    fillTarget target' (fillTarget target names) = fillTarget target (fillTarget target' names) := by
  cases target with
  | none => rfl
  | some t =>
    cases target' with
    | none => rfl
    | some t' =>
      obtain rfl := h t rfl t' rfl
      rfl

theorem fillTarget_of_agrees {first : Text} {names : List (Option Text)} {target : Option Text}
    (h : ∀ t ∈ target, names = twoNames first t) : fillTarget target names = names := by
  cases target with
  | none => rfl
  | some t =>
    rw [h t rfl]
    exact nameIfMissing_twoNames first t

theorem apart_named_member {first owner : Text} {names : List (Option Text)} {target : Option Text}
    {kind : MemberKind} {row : MemberRow} (h : (named first names).Agrees (member owner target kind row))
    (hfirst : names.head? = some (some first)) :
    (named first names).effect.Apart (member owner target kind row).effect := by
  intro heq c
  have hnames : fillTarget target names = names := by
    have hagrees : ∀ t ∈ target, names = twoNames owner t := by
      rintro t rfl
      exact h names rfl (twoNames owner t) rfl (by rw [hfirst, heq]; rfl)
    exact fillTarget_of_agrees hagrees
  constructor
  · cases kind <;> exact hnames
  · cases kind <;> rfl
  · cases kind <;> rfl
  · intro kind' row'
    simp only [ClassRow.mem_rows_addRow, ClassRow.mem_rows_named]

/-- **Rows that agree can change places.** -/
theorem apart {e e' : RowEffect} (h : e.Agrees e') (h' : e'.Agrees e) (he : e.IsNamed)
    (he' : e'.IsNamed) : e.effect.Apart e'.effect := by
  cases e with
  | package => cases e' <;> exact trivial
  | named first names =>
    cases e' with
    | package => exact trivial
    | named first' names' =>
      intro heq c
      have hhead : names.head? = names'.head? := by
        rw [show names.head? = _ from he, show names'.head? = _ from he', heq]
      obtain rfl := h names rfl names' rfl hhead
      exact .refl _
    | member owner target kind row => exact apart_named_member h he
  | member owner target kind row =>
    cases e' with
    | package => exact trivial
    | named first names => exact Effect.apart_symm.symm _ _ (apart_named_member h' he')
    | member owner' target' kind' row' =>
      intro heq c
      have htargets : ∀ t ∈ target, ∀ t' ∈ target', t = t' := by
        rintro t rfl t' rfl
        have hnames := h (twoNames owner t) rfl (twoNames owner' t') rfl
          (congrArg (fun first => some (some first)) heq)
        cases hnames
        rfl
      have hfill := fillTarget_comm htargets c.names
      constructor
      · cases kind <;> cases kind' <;> exact hfill
      · cases kind <;> cases kind' <;> rfl
      · cases kind <;> cases kind' <;> rfl
      · intro kind'' row''
        simp only [ClassRow.mem_rows_addRow, ClassRow.mem_rows_named, or_right_comm]

end RowEffect

/-! ## What the rows of a notation do -/

/-- What is declared is entered under its first name. -/
theorem exists_enter_of_declare {m : Mapping} {names : List (Option Text)} {r : Mapping × Text}
    (h : m.declare names none = .ok r) :
    ∃ first, names.head? = some (some first) ∧ first ≠ [] ∧
      ∀ m : Mapping, m.declare names none = .ok (m.enter first names, first) := by
  cases names with
  | nil => cases h
  | cons name others =>
    cases hname : name.bind Text.nonempty? with
    | none =>
      rw [declare, hname] at h
      cases h
    | some first =>
      obtain ⟨rfl, hne⟩ := eq_some_of_bind_nonempty? hname
      exact ⟨first, rfl, hne, fun m => declare_eq_enter m hne others⟩

/-- A class row of a notation in which rows stand for themselves. -/
theorem exists_named_of_declare {m m' : Mapping} {names : List (Option Text)}
    (h : (·.1) <$> m.declare names none = .ok m') :
    ∃ e : RowEffect, e.names? = some names ∧ e.IsNamed ∧
      ∀ (m : Mapping) (_ : Nat), (·.1) <$> m.declare names none = .ok (e.effect.into m) := by
  cases hdeclare : m.declare names none with
  | error f => rw [hdeclare] at h; cases h
  | ok r =>
    obtain ⟨first, hfirst, -, hall⟩ := exists_enter_of_declare hdeclare
    refine ⟨.named first names, rfl, hfirst, fun m _ => ?_⟩
    rw [hall m]
    rfl

/-- Where a row can be read it says this of a class, and has one effect wherever it stands. -/
def Says (step : Mapping → Nat × Text → Except Fault Mapping)
    (names : Text → Option (List (Option Text))) : Prop :=
  ∀ m n line m', step m (n, line) = .ok m' →
    ∃ e : RowEffect, e.names? = names line ∧ e.IsNamed ∧
      ∀ m n, step m (n, line) = .ok (e.effect.into m)

/-- The names that a member row of SRG gives the class that it mentions. -/
def srgOwnerNames (source target : Text) : Option (List (Option Text)) :=
  match MemberKey.parse source, MemberKey.parse target with
  | .ok s, .ok t => some (twoNames s.owner t.owner)
  | _, _ => none

def srgNames (line : Text) : Option (List (Option Text)) :=
  match srgColumns line with
  | (['C', 'L'], [source, target]) => some (twoNames source target)
  | (['F', 'D'], [source, target]) => srgOwnerNames source target
  | (['F', 'D'], [source, _, target, _]) => srgOwnerNames source target
  | (['M', 'D'], [source, _, target, _]) => srgOwnerNames source target
  | _ => none

/-- The names that a row of CSRG gives a class. -/
def csrgNames (line : Text) : Option (List (Option Text)) :=
  match Text.fields line with
  | [source, target] =>
    if Text.endsWith ['/'] source then none else some (twoNames source target)
  | _ => none

/-- The names that a row of the first version of Tiny gives a class. -/
def tiny1Names (line : Text) : Option (List (Option Text)) :=
  match Tiny.columns line with
  | kind :: cells => if kind = "CLASS".toList then some (Tiny.names false cells) else none
  | [] => none

theorem srgMember_eq_ok {n : Nat} {token : Text} {k : MemberKey} (h : srgMember n token = .ok k) :
    MemberKey.parse token = .ok k := by
  unfold srgMember at h
  split at h
  · rename_i hparse
    rw [hparse, Except.ok.inj h]
  · cases h

/-- **A member row of SRG mentions its owner and adds to it.** -/
theorem exists_member_of_srgMembers {m m' : Mapping} {n : Nat} {source target : Text}
    (kind : MemberKind) (descriptor : Option Text)
    (h : (do
      let s ← srgMember n source
      let t ← srgMember n target
      return (m.mentionOwners s.owner t.owner).addMember s.owner
        (kind, ⟨twoNames s.name t.name, descriptor, none⟩)) = .ok m') :
    ∃ e : RowEffect, e.names? = srgOwnerNames source target ∧ e.IsNamed ∧
      ∀ (m : Mapping) (n : Nat), (do
        let s ← srgMember n source
        let t ← srgMember n target
        return (m.mentionOwners s.owner t.owner).addMember s.owner
          (kind, ⟨twoNames s.name t.name, descriptor, none⟩)) = .ok (e.effect.into m) := by
  cases hs : srgMember n source with
  | error f => rw [hs] at h; cases h
  | ok s =>
    cases ht : srgMember n target with
    | error f => rw [hs, ht] at h; cases h
    | ok t =>
      have hs := srgMember_eq_ok hs
      have ht := srgMember_eq_ok ht
      refine ⟨.member s.owner (some t.owner) kind ⟨twoNames s.name t.name, descriptor, none⟩,
        ?_, trivial, fun m n => ?_⟩
      · rw [srgOwnerNames, hs, ht]
        rfl
      · have hs' : srgMember n source = .ok s := by rw [srgMember, hs]
        have ht' : srgMember n target = .ok t := by rw [srgMember, ht]
        rw [hs', ht']
        cases kind <;> exact congrArg Except.ok (onOwner_onOwner m s.owner _ _)

theorem says_srgStep : Says srgStep srgNames := by
  intro m n line m' h
  simp only [srgStep, srgNames] at h ⊢
  split at h
  · rename_i source target hcolumns
    simp only [hcolumns]
    exact ⟨.package source target, rfl, trivial, fun _ _ => rfl⟩
  · rename_i hcolumns
    simp only [hcolumns]
    exact exists_named_of_declare h
  · rename_i hcolumns
    simp only [hcolumns]
    exact exists_member_of_srgMembers .field none h
  · rename_i hcolumns
    simp only [hcolumns]
    exact exists_member_of_srgMembers .field _ h
  · rename_i hcolumns
    simp only [hcolumns]
    exact exists_member_of_srgMembers .method _ h
  · cases h

theorem says_csrgStep : Says csrgStep csrgNames := by
  intro m n line m' h
  simp only [csrgStep, csrgNames] at h ⊢
  split at h
  · rename_i source target hfields
    split at h
    · rename_i hslash
      simp only [hfields, if_pos hslash]
      exact ⟨.package source target, rfl, trivial, fun _ _ => rfl⟩
    · rename_i hslash
      simp only [hfields, if_neg hslash]
      exact exists_named_of_declare h
  · rename_i hfields
    simp only [hfields]
    exact ⟨.member _ none .field _, rfl, trivial, fun _ _ => rfl⟩
  · rename_i hfields
    split at h
    · rename_i hparen
      simp only [hfields, if_pos hparen]
      exact ⟨.member _ none .method _, rfl, trivial, fun _ _ => rfl⟩
    · cases h
  · cases h

theorem says_tiny1Step (width : Nat) : Says (tiny1Step width) tiny1Names := by
  intro m n line m' h
  cases hcolumns : Tiny.columns line with
  | nil =>
    simp only [tiny1Step, hcolumns] at h
    cases h
  | cons kind cells =>
    simp only [tiny1Step, tiny1Names, hcolumns] at h ⊢
    split at h
    · rename_i hclass
      simp only [if_pos hclass]
      split at h
      · rename_i hlength
        simp only [if_pos hlength]
        exact exists_named_of_declare h
      · cases h
    · rename_i hclass
      simp only [if_neg hclass]
      split at h
      · split at h
        · cases h
        · rename_i hlength
          simp only [if_neg hlength]
          split at h
          · rename_i hfield
            simp only [if_pos hfield]
            exact ⟨.member _ none .field _, rfl, trivial, fun _ _ => rfl⟩
          · rename_i hfield
            split at h
            · rename_i hmethod
              simp only [if_neg hfield, if_pos hmethod]
              exact ⟨.member _ none .method _, rfl, trivial, fun _ _ => rfl⟩
            · cases h
      · cases h

end Mapping

end Renaming
