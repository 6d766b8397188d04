import Mathlib.Data.List.Basic
import Renaming.Symbol.Descriptor

/-!
# `Proofs/Symbol/Descriptor` — renaming twice is renaming once

A composition renames the classes of a descriptor in two steps and reads the intermediate
descriptor afresh in between. That gives the same as one step with both renames as long as the
first does not put a semicolon into a name, which would end the class early. The reason is that
`pieces` undoes `ofPieces` on every list of pieces that could have been read (`IsReadable`), and
reading and such renames both answer lists of this kind.
-/

set_option autoImplicit false

namespace Renaming

namespace Descriptor

/-- The lists of pieces that a descriptor can be read as. -/
inductive IsReadable : List Piece → Prop
  | nil : IsReadable []
  | mark {c : Char} {ps : List Piece} (hc : c ≠ 'L') (h : IsReadable ps) :
      IsReadable (.mark c :: ps)
  | className {name : Text} {ps : List Piece} (hname : ';' ∉ name) (h : IsReadable ps) :
      IsReadable (.className name :: ps)
  | unclosed {rest : Text} (hrest : ';' ∉ rest) : IsReadable [.unclosed rest]

theorem isReadable_piecesFrom {o : Option Text} (ho : ∀ opened ∈ o, ';' ∉ opened) (d : Text) :
    IsReadable (piecesFrom o d) := by
  induction d generalizing o with
  | nil =>
    cases o with
    | none => exact .nil
    | some opened => exact .unclosed (ho opened rfl)
  | cons c r ih =>
    cases o with
    | none =>
      rw [piecesFrom]
      split
      · refine ih ?_
        rintro opened ⟨⟩
        exact List.not_mem_nil
      · rename_i hc
        exact .mark hc (ih ho)
    | some opened =>
      rw [piecesFrom]
      split
      · exact .className (ho opened rfl) (ih (by rintro _ ⟨⟩))
      · rename_i hc
        refine ih ?_
        rintro _ ⟨⟩ hmem
        rcases List.mem_append.1 hmem with h | h
        · exact ho opened rfl h
        · exact hc (List.mem_singleton.1 h).symm

theorem isReadable_pieces (d : Text) : IsReadable (pieces d) :=
  isReadable_piecesFrom (by rintro _ ⟨⟩) d

/-- A name goes on up to its semicolon. -/
theorem piecesFrom_name {name : Text} (hname : ';' ∉ name) (opened r : Text) :
    piecesFrom (some opened) (name ++ ';' :: r) =
      .className (opened ++ name) :: piecesFrom none r := by
  induction name generalizing opened with
  | nil => rw [List.nil_append, piecesFrom, if_pos rfl, List.append_nil]
  | cons c name ih =>
    rw [List.mem_cons, not_or] at hname
    rw [List.cons_append, piecesFrom, if_neg (Ne.symm hname.1), ih hname.2, List.append_assoc]
    rfl

theorem piecesFrom_unclosed {rest : Text} (hrest : ';' ∉ rest) (opened : Text) :
    piecesFrom (some opened) rest = [.unclosed (opened ++ rest)] := by
  induction rest generalizing opened with
  | nil => rw [piecesFrom, List.append_nil]
  | cons c rest ih =>
    rw [List.mem_cons, not_or] at hrest
    rw [piecesFrom, if_neg (Ne.symm hrest.1), ih hrest.2, List.append_assoc]
    rfl

/-- Pieces that could have been read are read again as they are. -/
theorem pieces_ofPieces {ps : List Piece} (h : IsReadable ps) : pieces (ofPieces ps) = ps := by
  induction h with
  | nil => rfl
  | @mark c ps hc _ ih =>
    show piecesFrom none (c :: ofPieces ps) = _
    rw [piecesFrom, if_neg hc]
    exact congrArg _ ih
  | @className name ps hname _ ih =>
    have htext : ofPieces (.className name :: ps) = 'L' :: (name ++ ';' :: ofPieces ps) := by
      simp [ofPieces, Piece.text]
    rw [htext, pieces, piecesFrom, if_pos rfl, piecesFrom_name hname]
    exact congrArg _ ih
  | @unclosed rest hrest =>
    have htext : ofPieces [.unclosed rest] = 'L' :: rest := by simp [ofPieces, Piece.text]
    rw [htext, pieces, piecesFrom, if_pos rfl, piecesFrom_unclosed hrest, List.nil_append]

/-! ## Renaming the classes of pieces -/

theorem className_mem_iff {d name : Text} :
    name ∈ classNames d ↔ Piece.className name ∈ pieces d := by
  simp only [classNames, List.mem_filterMap]
  constructor
  · rintro ⟨p, hp, hname⟩
    cases p with
    | className n =>
      obtain rfl := Option.some.inj hname
      exact hp
    | mark | unclosed => cases hname
  · exact fun h => ⟨_, h, rfl⟩

theorem notMem_of_isReadable {ps : List Piece} (h : IsReadable ps) {name : Text}
    (hmem : Piece.className name ∈ ps) : ';' ∉ name := by
  induction h with
  | nil => cases hmem
  | mark _ _ ih =>
    rcases List.mem_cons.1 hmem with e | hmem
    · cases e
    · exact ih hmem
  | className hname _ ih =>
    rcases List.mem_cons.1 hmem with e | hmem
    · cases e
      exact hname
    · exact ih hmem
  | unclosed =>
    rcases List.mem_cons.1 hmem with e | hmem
    · cases e
    · cases hmem

/-- A class name that was read holds no semicolon. -/
theorem notMem_of_mem_classNames {d name : Text} (h : name ∈ classNames d) : ';' ∉ name :=
  notMem_of_isReadable (isReadable_pieces d) (className_mem_iff.1 h)

theorem IsReadable.rename {ps : List Piece} (h : IsReadable ps) {f : Text → Text}
    (hf : ∀ name, Piece.className name ∈ ps → ';' ∉ f name) :
    IsReadable (ps.map (Piece.rename f)) := by
  induction h with
  | nil => exact .nil
  | mark hc _ ih => exact .mark hc (ih fun name hn => hf name (List.mem_cons_of_mem _ hn))
  | className _ _ ih =>
    exact .className (hf _ List.mem_cons_self)
      (ih fun name hn => hf name (List.mem_cons_of_mem _ hn))
  | unclosed hrest => exact .unclosed hrest

theorem pieces_rename {f : Text → Text} {d : Text} (hf : ∀ name ∈ classNames d, ';' ∉ f name) :
    pieces (rename f d) = (pieces d).map (Piece.rename f) :=
  pieces_ofPieces ((isReadable_pieces d).rename fun name hn => hf name (className_mem_iff.2 hn))

/-- **Renaming twice is renaming once**, unless the first rename ends a class early. -/
theorem rename_rename {f g : Text → Text} {d : Text}
    (hf : ∀ name ∈ classNames d, ';' ∉ f name) :
    rename g (rename f d) = rename (fun name => g (f name)) d := by
  rw [rename, pieces_rename hf, List.map_map, rename]
  congr 1
  refine List.map_congr_left fun p _ => ?_
  cases p <;> rfl

/-- Only what happens to the classes of a descriptor matters. -/
theorem rename_congr {f g : Text → Text} {d : Text} (h : ∀ name ∈ classNames d, f name = g name) :
    rename f d = rename g d := by
  unfold rename
  congr 1
  refine List.map_congr_left fun p hp => ?_
  cases p with
  | className name => exact congrArg Piece.className (h name (className_mem_iff.2 hp))
  | mark | unclosed => rfl

theorem rename_eq_self {f : Text → Text} {d : Text} (h : ∀ name ∈ classNames d, f name = name) :
    rename f d = d := by
  have hmap : (pieces d).map (Piece.rename id) = pieces d := by
    refine (List.map_congr_left fun p _ => ?_).trans (List.map_id _)
    cases p <;> rfl
  rw [rename_congr h (g := id), rename, hmap, ofPieces_pieces]

/-- The classes of a renamed descriptor are the renamed classes, one for one. -/
theorem classNames_rename {f : Text → Text} {d : Text}
    (hf : ∀ name ∈ classNames d, ';' ∉ f name) :
    classNames (rename f d) = (classNames d).map f := by
  unfold classNames
  rw [pieces_rename hf, List.filterMap_map, List.map_filterMap]
  refine List.filterMap_congr fun p _ => ?_
  cases p <;> rfl

/-- **Renaming is functorial**, whether a descriptor is well formed or not: the identity changes
nothing, and two renames in a row are their composition. So what is undone for each class is undone
for the descriptor. -/
theorem rename_functorial (d : Text) :
    rename id d = d ∧
      ∀ f g : Text → Text, (∀ name ∈ classNames d, ';' ∉ f name) →
        rename g (rename f d) = rename (g ∘ f) d ∧
        classNames (rename f d) = (classNames d).map f ∧
        ((∀ name ∈ classNames d, g (f name) = name) → rename g (rename f d) = d) := by
  refine ⟨rename_eq_self fun _ _ => rfl, fun f g hf => ?_⟩
  have htwice : rename g (rename f d) = rename (g ∘ f) d := rename_rename hf
  refine ⟨htwice, classNames_rename hf, fun hundone => ?_⟩
  rw [htwice]
  exact rename_eq_self hundone

/-- Two classes, and a third that no semicolon closes. -/
def unclosedDescriptor : Text := "(La;[Lb/L;I)Lc".toList

/-- New names may hold the marks of descriptors. -/
theorem rename_functorial_unclosed :
    (∀ name ∈ classNames unclosedDescriptor, ';' ∉ "L[(".toList ++ name) ∧
      (∀ name ∈ classNames unclosedDescriptor, List.drop 3 ("L[(".toList ++ name) = name) ∧
      rename (List.drop 3) (rename ("L[(".toList ++ ·) unclosedDescriptor) =
        unclosedDescriptor := by
  have hplain : ∀ name ∈ classNames unclosedDescriptor, ';' ∉ "L[(".toList ++ name := by decide
  have hundone : ∀ name ∈ classNames unclosedDescriptor,
      List.drop 3 ("L[(".toList ++ name) = name := fun _ _ => rfl
  have hrename := (rename_functorial unclosedDescriptor).2 ("L[(".toList ++ ·) (List.drop 3) hplain
  exact ⟨hplain, hundone, hrename.2.2 hundone⟩

theorem ofPieces_ne_nil {ps : List Piece} (h : ps ≠ []) : ofPieces ps ≠ [] := by
  cases ps with
  | nil => exact absurd rfl h
  | cons p ps =>
    intro hnil
    have htext : p.text = [] := (List.append_eq_nil_iff.1 hnil).1
    cases p <;> cases htext

/-- A descriptor that is there stays there. -/
theorem rename_ne_nil (f : Text → Text) {d : Text} (h : d ≠ []) : rename f d ≠ [] := by
  apply ofPieces_ne_nil
  intro hnil
  rw [List.map_eq_nil_iff] at hnil
  apply h
  rw [← ofPieces_pieces d, hnil]
  rfl

/-! ## Descriptors kept apart -/

theorem eq_of_map_eq_map {α β : Type} {f : α → β} {l l' : List α}
    (hf : ∀ x ∈ l, ∀ y ∈ l', f x = f y → x = y) (h : l.map f = l'.map f) : l = l' := by
  induction l generalizing l' with
  | nil =>
    cases l' with
    | nil => rfl
    | cons y l' => cases h
  | cons x l ih =>
    cases l' with
    | nil => cases h
    | cons y l' =>
      rw [List.map_cons, List.map_cons, List.cons.injEq] at h
      have hhead := hf x List.mem_cons_self y List.mem_cons_self h.1
      have htail := ih (fun x hx y hy =>
        hf x (List.mem_cons_of_mem _ hx) y (List.mem_cons_of_mem _ hy)) h.2
      rw [hhead, htail]

/-- A rename that keeps the classes of two descriptors apart keeps the descriptors apart. -/
theorem rename_inj {f : Text → Text} {d d' : Text} (hd : ∀ name ∈ classNames d, ';' ∉ f name)
    (hd' : ∀ name ∈ classNames d', ';' ∉ f name)
    (hf : ∀ x ∈ classNames d, ∀ y ∈ classNames d', f x = f y → x = y)
    (h : rename f d = rename f d') : d = d' := by
  have hpieces : (pieces d).map (Piece.rename f) = (pieces d').map (Piece.rename f) := by
    rw [← pieces_rename hd, ← pieces_rename hd', h]
  rw [← ofPieces_pieces d, ← ofPieces_pieces d']
  congr 1
  refine eq_of_map_eq_map (fun p hp q hq hpq => ?_) hpieces
  cases p with
  | className x =>
    cases q with
    | className y =>
      obtain rfl := hf x (className_mem_iff.2 hp) y (className_mem_iff.2 hq)
        (Piece.className.inj hpq)
      rfl
    | mark | unclosed => cases hpq
  | mark | unclosed =>
    cases q with
    | className => cases hpq
    | mark | unclosed => exact hpq

end Descriptor

end Renaming
