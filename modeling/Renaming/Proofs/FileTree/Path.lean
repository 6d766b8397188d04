import Mathlib.Algebra.Order.BigOperators.Group.List
import Mathlib.Algebra.Order.Ring.Nat
import Renaming.FileTree.Remap

/-!
# `Proofs/FileTree/Path` — where a path leads, and which path comes first

A path is followed through the folders that are there, but where it leads can be told from its
names alone: two dots take away the name in front (`Path.place`). What has to be known of this is
little. Names without two dots are simply appended, and in particular the last name of a path to a
file is the last name of its place, so that the file and the temporary file beside it never share a
place with each other, nor with the file or the temporary file of another
(`place_ne_place_temporary`). Without two dots a path is not longer in writing either, if it starts
at a root (`byteLength_normal_le`), and so a system that limits how long paths are still follows it.

Texts are compared by their first difference, and so are lists of names. The comparison is written
twice in the model; `firstDifferenceLe` is what both are, and that it orders lists linearly is
proved for it.
-/

set_option autoImplicit false

namespace Renaming

/-! ## Order by the first difference -/

section FirstDifference

variable {α : Type} [DecidableEq α] {r : α → α → Bool}

/-- Comparison of lists by the first members that differ, the shorter list first when one begins the
other. -/
def firstDifferenceLe (r : α → α → Bool) : List α → List α → Bool
  | [], _ => true
  | _ :: _, [] => false
  | a :: as, b :: bs => if a = b then firstDifferenceLe r as bs else r a b

theorem firstDifferenceLe_total (h : ∀ a b, (r a b || r b a) = true) (as bs : List α) :
    (firstDifferenceLe r as bs || firstDifferenceLe r bs as) = true := by
  induction as generalizing bs with
  | nil => rfl
  | cons a as ih =>
    cases bs with
    | nil => rfl
    | cons b bs =>
      by_cases hab : a = b
      · simpa [firstDifferenceLe, hab] using ih bs
      · simpa [firstDifferenceLe, hab, Ne.symm hab] using h a b

theorem firstDifferenceLe_antisymm (h : ∀ a b, r a b = true → r b a = true → a = b)
    {as bs : List α} (hab : firstDifferenceLe r as bs = true)
    (hba : firstDifferenceLe r bs as = true) : as = bs := by
  induction as generalizing bs with
  | nil =>
    cases bs with
    | nil => rfl
    | cons b bs => cases hba
  | cons a as ih =>
    cases bs with
    | nil => cases hab
    | cons b bs =>
      by_cases heq : a = b
      · subst heq
        rw [firstDifferenceLe, if_pos rfl] at hab hba
        rw [ih hab hba]
      · rw [firstDifferenceLe, if_neg heq] at hab
        rw [firstDifferenceLe, if_neg (Ne.symm heq)] at hba
        exact absurd (h a b hab hba) heq

theorem firstDifferenceLe_trans (htrans : ∀ a b c, r a b = true → r b c = true → r a c = true)
    (hanti : ∀ a b, r a b = true → r b a = true → a = b) {as bs cs : List α}
    (hab : firstDifferenceLe r as bs = true) (hbc : firstDifferenceLe r bs cs = true) :
    firstDifferenceLe r as cs = true := by
  induction as generalizing bs cs with
  | nil => rfl
  | cons a as ih =>
    cases bs with
    | nil => cases hab
    | cons b bs =>
      cases cs with
      | nil => cases hbc
      | cons c cs =>
        rw [firstDifferenceLe] at hab hbc ⊢
        by_cases h1 : a = b
        · subst h1
          rw [if_pos rfl] at hab
          by_cases h2 : a = c
          · rw [if_pos h2] at hbc ⊢
            exact ih hab hbc
          · rw [if_neg h2] at hbc ⊢
            exact hbc
        · rw [if_neg h1] at hab
          by_cases h2 : b = c
          · subst h2
            rw [if_neg h1]
            exact hab
          · rw [if_neg h2] at hbc
            have hac : a ≠ c := by
              rintro rfl
              exact h1 (hanti a b hab hbc)
            rw [if_neg hac]
            exact htrans a b c hab hbc

end FirstDifference

namespace Text

theorem le_eq : le = firstDifferenceLe fun a b : Char => decide (a.toNat ≤ b.toNat) := by
  funext s t
  induction s generalizing t with
  | nil => rfl
  | cons a s ih =>
    cases t with
    | nil => rfl
    | cons b t => rw [le, firstDifferenceLe, ih]

theorem le_total (s t : Text) : (le s t || le t s) = true := by
  rw [le_eq]
  refine firstDifferenceLe_total (fun a b => ?_) s t
  simpa using Nat.le_total a.toNat b.toNat

theorem le_antisymm {s t : Text} (hst : le s t = true) (hts : le t s = true) : s = t := by
  rw [le_eq] at hst hts
  refine firstDifferenceLe_antisymm (fun a b hab hba => ?_) hst hts
  exact Char.toNat_inj.1 (Nat.le_antisymm (of_decide_eq_true hab) (of_decide_eq_true hba))

theorem le_trans {r s t : Text} (hrs : le r s = true) (hst : le s t = true) : le r t = true := by
  rw [le_eq] at hrs hst ⊢
  refine firstDifferenceLe_trans (fun a b c hab hbc => ?_) (fun a b hab hba => ?_) hrs hst
  · exact decide_eq_true (Nat.le_trans (of_decide_eq_true hab) (of_decide_eq_true hbc))
  · exact Char.toNat_inj.1 (Nat.le_antisymm (of_decide_eq_true hab) (of_decide_eq_true hba))

end Text

namespace Path

theorem namesLe_eq : namesLe = firstDifferenceLe Text.le := by
  funext as bs
  induction as generalizing bs with
  | nil => rfl
  | cons a as ih =>
    cases bs with
    | nil => rfl
    | cons b bs => rw [namesLe, firstDifferenceLe, ih]

theorem namesLe_append (ns as bs : List Text) : namesLe (ns ++ as) (ns ++ bs) = namesLe as bs := by
  induction ns with
  | nil => rfl
  | cons n ns ih => rw [List.cons_append, List.cons_append, namesLe, if_pos rfl, ih]

theorem pairwise_mergeSort_namesLe (l : List (List Text)) :
    (l.mergeSort namesLe).Pairwise fun as bs => namesLe as bs = true := by
  rw [namesLe_eq]
  refine List.pairwise_mergeSort (fun as bs cs hab hbc => ?_) (fun as bs => ?_) l
  · exact firstDifferenceLe_trans (r := Text.le) (fun _ _ _ => Text.le_trans)
      (fun _ _ => Text.le_antisymm) hab hbc
  · exact firstDifferenceLe_total Text.le_total as bs

/-! ## Where a path leads -/

/-- The place that a path leads to, told from its names alone. -/
def place (p : Path) : Place := p.normal.names

theorem normal_eq_iff {p q : Path} : p.normal = q.normal ↔ p.place = q.place := by
  simp [normal, place]

theorem foldl_enter {ms : List Text} (h : up ∉ ms) (outer : List Text) :
    ms.foldl enter outer = ms.reverse ++ outer := by
  induction ms generalizing outer with
  | nil => rfl
  | cons m ms ih =>
    rw [List.mem_cons, not_or] at h
    have hm : enter outer m = m :: outer := if_neg (Ne.symm h.1)
    rw [List.foldl_cons, hm, ih h.2, List.reverse_cons, List.append_assoc]
    rfl

theorem normalNames_append {ns ms : List Text} (h : up ∉ ms) :
    normalNames (ns ++ ms) = normalNames ns ++ ms := by
  rw [normalNames, List.foldl_append, foldl_enter h, List.reverse_append, List.reverse_reverse]
  rfl

theorem up_notMem_normalNames (ns : List Text) : up ∉ normalNames ns := by
  have entered : ∀ outer : List Text, up ∉ outer → up ∉ ns.foldl enter outer := by
    induction ns with
    | nil => exact fun _ h => h
    | cons n ns ih =>
      intro outer h
      rw [List.foldl_cons]
      apply ih
      unfold enter
      split
      · exact fun hmem => h (List.mem_of_mem_tail hmem)
      · rename_i hn
        rw [List.mem_cons, not_or]
        exact ⟨Ne.symm hn, h⟩
  rw [normalNames, List.mem_reverse]
  exact entered [] List.not_mem_nil

@[simp] theorem place_normal (p : Path) : p.normal.place = p.place :=
  @normalNames_append [] _ (up_notMem_normalNames p.names)

theorem place_of_names {p : Path} {ns : List Text} {n : Text} (h : p.names = ns ++ [n])
    (hn : n ≠ up) : p.place = normalNames ns ++ [n] := by
  show normalNames p.names = _
  rw [h, normalNames_append (by simpa using Ne.symm hn)]

/-! ## Assembly files and the temporary files beside them -/

/-- Whether the path ends with the name of an assembly file. -/
def IsAssembly (p : Path) : Prop := ∃ ns n, p.names = ns ++ [n ++ FileTree.assemblySuffix]

theorem append_ne_up {s : Text} (hs : 2 < s.length) (n : Text) : n ++ s ≠ up := by
  intro h
  have hlen : n.length + s.length = 2 := by
    rw [← List.length_append, h]
    rfl
  omega

theorem names_temporary {p : Path} {ns : List Text} {n : Text} (h : p.names = ns ++ [n]) :
    (FileTree.temporary p).names = ns ++ [n ++ FileTree.temporarySuffix] := by
  simp [FileTree.temporary, extend, name, h]

/-- A file and the temporary file beside it are in one folder. -/
theorem IsAssembly.places {p : Path} (h : p.IsAssembly) :
    ∃ ns n, p.place = ns ++ [n ++ FileTree.assemblySuffix] ∧
      (FileTree.temporary p).place =
        ns ++ [n ++ FileTree.assemblySuffix ++ FileTree.temporarySuffix] := by
  obtain ⟨ns, n, hnames⟩ := h
  refine ⟨normalNames ns, n, ?_, ?_⟩
  · exact place_of_names hnames (append_ne_up (by decide) n)
  · exact place_of_names (names_temporary hnames) (by
      rw [List.append_assoc]
      exact append_ne_up (by decide) n)

/-- No place is that of one file and that of the temporary file of another. -/
theorem place_ne_place_temporary {p q : Path} (hp : p.IsAssembly) (hq : q.IsAssembly) :
    p.place ≠ (FileTree.temporary q).place := by
  obtain ⟨ns, n, hplace, -⟩ := hp.places
  obtain ⟨ms, m, -, htemporary⟩ := hq.places
  rw [hplace, htemporary]
  intro h
  have hname : n ++ FileTree.assemblySuffix =
      m ++ FileTree.assemblySuffix ++ FileTree.temporarySuffix := by
    simpa using congrArg List.getLast? h
  have hlast := congrArg List.getLast? hname
  simp [FileTree.assemblySuffix, FileTree.temporarySuffix] at hlast

end Path

/-- The last piece between the marks of a text ends as the text does. -/
theorem Text.splitOn_append {c : Char} {s : Text} (h : c ∉ s) (t : Text) :
    ∃ ws w, splitOn c (t ++ s) = ws ++ [w ++ s] := by
  unfold splitOn
  induction t with
  | nil =>
    refine ⟨[], [], ?_⟩
    induction s with
    | nil => rfl
    | cons d s ih =>
      rw [List.mem_cons, not_or] at h
      have hd : (d == c) = false := beq_eq_false_iff_ne.2 (Ne.symm h.1)
      have hs : splitWhere (· == c) s = [s] := ih h.2
      simp only [List.nil_append, splitWhere, hd, hs]
      rfl
  | cons d t ih =>
    obtain ⟨ws, w, hw⟩ := ih
    rw [List.cons_append, splitWhere, hw]
    by_cases hd : d = c
    · exact ⟨[] :: ws, w, by simp [hd]⟩
    · cases ws with
      | nil => exact ⟨[], d :: w, by simp [hd]⟩
      | cons v ws => exact ⟨(d :: v) :: ws, w, by simp [hd]⟩

namespace Path

/-- A path whose spelling ends as assembly files do leads to one. -/
theorem isAssembly_ofText (t : Text) : (ofText (t ++ FileTree.assemblySuffix)).IsAssembly := by
  obtain ⟨ws, w, hw⟩ := Text.splitOn_append (c := '/') (s := FileTree.assemblySuffix) (by decide) t
  refine ⟨ws.filter fun n => n ≠ [] ∧ n ≠ ['.'], w, ?_⟩
  show (Text.splitOn '/' (t ++ FileTree.assemblySuffix)).filter _ = _
  have hlast : w ++ FileTree.assemblySuffix ≠ [] ∧ w ++ FileTree.assemblySuffix ≠ ['.'] := by
    constructor <;> intro h <;> simpa [FileTree.assemblySuffix] using congrArg List.length h
  rw [hw, List.filter_append, List.filter_cons, if_pos (decide_eq_true hlast)]
  rfl

theorem IsAssembly.join {p q : Path} (h : q.IsAssembly) : (p.join q).IsAssembly := by
  obtain ⟨ns, n, hnames⟩ := h
  unfold Path.join
  split
  · exact ⟨ns, n, hnames⟩
  · exact ⟨p.names ++ ns, n, by rw [hnames, List.append_assoc]⟩

end Path

/-! ## How long a path is -/

/-- Of fewer pieces less is joined. -/
theorem Text.joinWith_sublist (c : Char) {as bs : List Text} (h : as.Sublist bs) :
    (joinWith c as).Sublist (joinWith c bs) := by
  induction h with
  | slnil => exact .slnil
  | @cons as bs b _ ih =>
    cases bs with
    | nil => exact ih.trans (List.nil_sublist b)
    | cons b' bs =>
      exact ih.trans ((List.sublist_cons_self c _).trans (List.sublist_append_right b _))
  | @cons_cons as bs a h ih =>
    cases bs with
    | nil => rw [List.sublist_nil.1 h]
    | cons b bs =>
      cases as with
      | nil => exact List.sublist_append_left a _
      | cons a' as => exact (List.Sublist.refl a).append (ih.cons_cons c)

namespace Path

theorem foldl_enter_sublist (ns outer : List Text) :
    (ns.foldl enter outer).Sublist (ns.reverse ++ outer) := by
  induction ns generalizing outer with
  | nil => exact List.Sublist.refl outer
  | cons n ns ih =>
    rw [List.foldl_cons, List.reverse_cons, List.append_assoc]
    refine (ih _).trans ((List.Sublist.refl _).append ?_)
    unfold enter
    split
    · exact (List.tail_sublist outer).trans (List.sublist_cons_self n outer)
    · exact List.Sublist.refl _

theorem normalNames_sublist (ns : List Text) : (normalNames ns).Sublist ns := by
  have h := (foldl_enter_sublist ns []).reverse
  rw [List.append_nil, List.reverse_reverse] at h
  exact h

theorem byteLength_eq_sum (t : Text) : byteLength t = (t.map Char.utf8Size).sum := by
  rw [byteLength, List.sum_eq_foldl, List.foldl_map]

/-- A path that starts at a root is not longer in writing without two dots. -/
theorem byteLength_normal_le {p : Path} (h : p.isAbsolute = true) :
    byteLength p.normal.text ≤ byteLength p.text := by
  obtain ⟨root, names⟩ := p
  cases root with
  | nil => cases h
  | cons c root =>
    have hnames : (Text.joinWith '/' (normalNames names)).Sublist
        (root ++ Text.joinWith '/' names) :=
      (Text.joinWith_sublist '/' (normalNames_sublist names)).trans
        (List.sublist_append_right root _)
    have hle := (hnames.map Char.utf8Size).sum_le_sum fun _ _ => Nat.zero_le _
    -- One slash is the root now, and no character has fewer bytes.
    have hslash : Char.utf8Size '/' = 1 := by decide
    have hc := c.utf8Size_pos
    simp only [byteLength_eq_sum, text, normal, List.cons_ne_nil, false_and, if_false,
      List.cons_append, List.nil_append, List.map_cons, List.sum_cons, hslash]
    omega

end Path

end Renaming
