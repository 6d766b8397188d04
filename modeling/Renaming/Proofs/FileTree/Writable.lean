import Renaming.Proofs.Ending
import Renaming.Proofs.FileTree.Run

/-!
# `Proofs/FileTree/Writable` — writes that fail with a sentence

A write that fails is cleaned up after, and the cleaning up may fail in its turn; only then does a
fault without a sentence get out. This cannot happen to a path on whose way there is no file, whose
names are not too long, and with no folder in the place of its temporary file (`Writable`):

> writing to it succeeds, or it fails and says why (`ends_replace`).

It may be that the path still cannot be written, if a folder is in the place of the file itself.
What other jobs write does not change this, as long as none of them puts a file on the way or a
folder into the place (`Writable.replace`).
-/

set_option autoImplicit false

namespace Renaming

/-- Without two dots a path leads where its names say. -/
theorem Path.place_eq_names {p : Path} (h : Path.up ∉ p.names) : p.place = p.names :=
  @normalNames_append [] _ h

namespace FileTree

/-- The one place is that of a folder around the other. -/
def Above (q r : Place) : Prop := ∃ n b, r = q ++ n :: b

theorem Above.length_lt {q r : Place} (h : Above q r) : q.length < r.length := by
  obtain ⟨n, b, rfl⟩ := h
  rw [List.length_append, List.length_cons]
  omega

theorem above_concat_iff {r ns : Place} {n : Text} : Above r (ns ++ [n]) ↔ r <+: ns := by
  constructor
  · rintro ⟨m, b, hsplit⟩
    rcases List.eq_nil_or_concat b with rfl | ⟨b, l, rfl⟩
    · obtain ⟨rfl, -⟩ := List.append_inj' hsplit rfl
      exact List.prefix_refl ns
    · have hinit : ns ++ [n] = (r ++ m :: b) ++ [l] := by simpa using hsplit
      obtain ⟨rfl, -⟩ := List.append_inj' hinit rfl
      exact List.prefix_append r (m :: b)
  · rintro ⟨s, rfl⟩
    cases s with
    | nil => exact ⟨n, [], by rw [List.append_nil]⟩
    | cons m s => exact ⟨m, s ++ [n], by simp⟩

/-- A file and its temporary file have the same folders around them. -/
theorem above_temporary_iff {p : Path} (hp : p.IsAssembly) {r : Place} :
    Above r (temporary p).place ↔ Above r p.place := by
  obtain ⟨ns, n, hplace, htemporary⟩ := hp.places
  rw [hplace, htemporary, above_concat_iff, above_concat_iff]

/-- There is no file on the way to the place, and its names are names. -/
def Clear (t : FileTree) (r : Place) : Prop :=
  ∀ a n b, r = a ++ n :: b → t.content? a = none ∧ n ≠ Path.up ∧ Path.byteLength n ≤ maxNameBytes

/-- The way to a place is that to the folder around it and one name more. -/
theorem Clear.push {t : FileTree} {ns : Place} {n : Text} (h : t.Clear ns)
    (hfile : t.content? ns = none) (hup : n ≠ Path.up) (hlen : Path.byteLength n ≤ maxNameBytes) :
    t.Clear (ns ++ [n]) := by
  intro a m b hsplit
  rcases List.eq_nil_or_concat b with rfl | ⟨b, l, rfl⟩
  · obtain ⟨rfl, hm⟩ := List.append_inj' hsplit rfl
    cases hm
    exact ⟨hfile, hup, hlen⟩
  · have hinit : ns ++ [n] = (a ++ m :: b) ++ [l] := by simpa using hsplit
    obtain ⟨rfl, -⟩ := List.append_inj' hinit rfl
    exact h a m b rfl

/-- What may be wrong with a way that is clear is that it is not there. -/
theorem Clear.follow {t : FileTree} {p : Place} {ns : List Text} (h : t.Clear (p ++ ns)) :
    t.follow p ns = .ok (p ++ ns) ∨ t.follow p ns = .error .missing := by
  induction ns generalizing p with
  | nil => exact .inl (by rw [FileTree.follow, List.append_nil])
  | cons n ns ih =>
    obtain ⟨hfile, hup, hlen⟩ := h p n ns rfl
    have hsplit : p ++ n :: ns = p ++ [n] ++ ns := by simp
    rw [FileTree.follow]
    cases hat : t.at? p with
    | none => exact .inr rfl
    | some node =>
      cases node with
      | file b =>
        rw [content?_eq_some_iff.2 hat] at hfile
        cases hfile
      | folder =>
        simp only [if_neg hup, if_neg (Nat.not_lt.2 hlen)]
        rw [hsplit] at h ⊢
        exact ih h

/-- Whatever goes wrong when the path is written, it can be cleaned up after. -/
structure Writable (t : FileTree) (p : Path) : Prop where
  up : Path.up ∉ p.names
  nul : p.hasNul = false
  short : Path.byteLength (temporary p).text ≤ maxPathBytes
  clear : t.Clear (temporary p).place
  free : t.at? (temporary p).place ≠ some .folder

theorem up_temporary {p : Path} (h : Path.up ∉ p.names) : Path.up ∉ (temporary p).names := by
  show Path.up ∉ p.names.dropLast ++ [p.name ++ temporarySuffix]
  rw [List.mem_append, List.mem_singleton]
  rintro (hmem | hlast)
  · exact h ((List.dropLast_sublist p.names).subset hmem)
  · exact Path.append_ne_up (by decide) p.name hlast.symm

/-! ## New folders -/

/-- All folders that are new are at such places. -/
def NewFolders (places : Place → Prop) (t t' : FileTree) : Prop :=
  ∀ q, t'.at? q = some .folder → t.at? q = some .folder ∨ places q

namespace NewFolders

variable {places : Place → Prop} {t t' t'' : FileTree}

theorem refl (places : Place → Prop) (t : FileTree) : NewFolders places t t := fun _ h => .inl h

theorem trans (h : NewFolders places t t') (h' : NewFolders places t' t'') :
    NewFolders places t t'' := fun q hq => (h' q hq).elim (h q) .inr

theorem set_file (places : Place → Prop) (t : FileTree) {p : Place} (hp : p ≠ []) (b : Bytes) :
    NewFolders places t (t.set p (.file b)) := by
  intro q hq
  by_cases heq : q = p
  · rw [heq, at?_set_self t hp] at hq
    cases hq
  · rw [at?_set_of_ne t heq] at hq
    exact .inl hq

theorem erase (places : Place → Prop) (t : FileTree) {p : Place} (hp : p ≠ []) :
    NewFolders places t (t.erase p) := by
  intro q hq
  by_cases heq : q = p
  · rw [heq, at?_erase_self t hp] at hq
    cases hq
  · rw [at?_erase_of_ne t heq] at hq
    exact .inl hq

theorem ensureFolder {p : Path} (hp : places p.place) (t : FileTree) :
    NewFolders places t (t.ensureFolder p).1 := by
  unfold FileTree.ensureFolder
  split
  · rename_i t' h
    obtain ⟨hnone, rfl⟩ := makeFolder_eq_ok h
    intro q hq
    by_cases heq : q = p.place
    · exact .inr (heq ▸ hp)
    · rw [at?_set_of_ne t heq] at hq
      exact .inl hq
  · split
    · exact .refl places t
    · exact .refl places t

/-- Where there are no two dots in the names, the folders that are made are those on the way. -/
theorem makeFolders {root : Text} {ns : List Text} (hup : Path.up ∉ ns)
    (hplaces : ∀ q, q <+: ns.reverse → places q) (t : FileTree) :
    NewFolders places t (FileTree.makeFolders root ns t).1 := by
  induction ns generalizing t with
  | nil => exact .refl places t
  | cons n ns ih =>
    have hplace : (⟨root, (n :: ns).reverse⟩ : Path).place = (n :: ns).reverse :=
      Path.place_eq_names fun hmem => hup (List.mem_reverse.1 hmem)
    have hlast : ∀ t : FileTree,
        NewFolders places t (t.ensureFolder ⟨root, (n :: ns).reverse⟩).1 :=
      ensureFolder (by rw [hplace]; exact hplaces _ (List.prefix_refl _))
    have houter := ih (fun hmem => hup (List.mem_cons_of_mem n hmem)) (fun q hq => hplaces q (by
      rw [List.reverse_cons]
      exact hq.trans (List.prefix_append _ _))) t
    rw [FileTree.makeFolders]
    split
    · split
      · rename_i t' h
        rw [h] at houter
        exact houter.trans (hlast t')
      · exact houter
    · exact hlast t

theorem abandon (places : Place → Prop) (t : FileTree) (p : Path) :
    NewFolders places t (t.abandon p).1 := by
  unfold FileTree.abandon
  split
  · rename_i t' h
    obtain ⟨hfile, rfl⟩ := remove_eq_ok h
    exact .erase places t (ne_root hfile)
  · exact .refl places t
  · exact .refl places t

end NewFolders

theorem newFolders_parents {p : Path} (hup : Path.up ∉ p.names) (t : FileTree) :
    NewFolders (fun q => q <+: p.names.dropLast) t
      (makeFolders p.root p.names.dropLast.reverse t).1 := by
  apply NewFolders.makeFolders
  · rw [List.mem_reverse]
    exact fun hmem => hup ((List.dropLast_sublist p.names).subset hmem)
  · rw [List.reverse_reverse]
    exact fun _ h => h

/-- Writing a file makes folders on its way and no others. -/
theorem newFolders_replace {p : Path} (hup : Path.up ∉ p.names) (b : Bytes) (t : FileTree) :
    NewFolders (fun q => q <+: p.names.dropLast) t (t.replace p b).1 := by
  have hfolders := newFolders_parents hup t
  unfold replace
  split
  · exact .refl _ t
  · split
    · rename_i hmade
      rw [hmade] at hfolders
      exact hfolders.trans (.abandon _ _ p)
    · rename_i hmade
      rw [hmade] at hfolders
      split
      · exact hfolders
      · split
        · exact hfolders.trans (.abandon _ _ p)
        · rename_i hwrite
          obtain ⟨hfolder, rfl⟩ := write_eq_ok hwrite
          have hwritten := hfolders.trans (.set_file _ _ (ne_root hfolder) b)
          split
          · exact hwritten.trans (.abandon _ _ p)
          · rename_i hmove
            obtain ⟨c, -, htarget, rfl⟩ := move_eq_ok hmove
            exact (hwritten.trans (.erase _ _ (ne_root hfolder))).trans
              (.set_file _ _ (ne_root htarget) c)

/-! ## Writing -/

namespace Writable

variable {t t' : FileTree} {p : Path}

/-- What is written elsewhere leaves the way clear. -/
theorem kept (h : t.Writable p) {S : List Place} {places : Place → Prop} (hkept : KeptBut S t t')
    (hS : ∀ q ∈ S, ¬ Above q (temporary p).place) (hfolders : NewFolders places t t')
    (hplaces : ¬ places (temporary p).place) : t'.Writable p := by
  refine ⟨h.up, h.nul, h.short, fun a n b hsplit => ?_, fun hfolder => ?_⟩
  · obtain ⟨hfile, hname⟩ := h.clear a n b hsplit
    refine ⟨?_, hname⟩
    rw [hkept.content a fun hmem => hS a hmem ⟨n, b, hsplit⟩]
    exact hfile
  · exact (hfolders _ hfolder).elim h.free hplaces

/-- The temporary file can be removed, or it is not there. -/
theorem remove_cases (h : t.Writable p) :
    (∃ t', t.remove (temporary p) = .ok t') ∨ t.remove (temporary p) = .error .missing := by
  have hplace : (temporary p).place = (temporary p).names := Path.place_eq_names (up_temporary h.up)
  have hclear := h.clear
  have hfree := h.free
  rw [hplace] at hclear hfree
  unfold remove FileTree.place
  rw [if_neg (Nat.not_lt.2 h.short)]
  generalize (temporary p).names = names at hclear hfree
  rcases Clear.follow (p := []) hclear with hfollow | hfollow
  · rw [List.nil_append] at hfollow
    rw [hfollow]
    cases hat : t.at? names with
    | none => exact .inr (by simp only [bind, Except.bind, hat]; rfl)
    | some node =>
      cases node with
      | folder => exact absurd hat hfree
      | file b => exact .inl ⟨_, by simp only [bind, Except.bind, hat]; rfl⟩
  · rw [hfollow]
    exact .inr rfl

theorem ends_abandon (h : t.Writable p) :
    Ends (fun _ => True) Fault.IsExplained (t.abandon p).2 := by
  unfold abandon
  obtain ⟨t', hremove⟩ | hremove := h.remove_cases
  · rw [hremove]
    exact rfl
  · rw [hremove]
    exact rfl

/-- The folders around a file leave its way clear. -/
theorem folders (h : t.Writable p) :
    (makeFolders p.root p.names.dropLast.reverse t).1.Writable p := by
  apply h.kept (keptBut_makeFolders p.root p.names.dropLast.reverse t)
    (fun q hq => absurd hq List.not_mem_nil) (newFolders_parents h.up t)
  intro hprefix
  rw [Path.place_eq_names (up_temporary h.up)] at hprefix
  have hlength : (temporary p).names.length = p.names.dropLast.length + 1 := List.length_append
  have hle := hprefix.length_le
  omega

/-- The temporary file leaves its own way clear. -/
theorem written (h : t.Writable p) (b : Bytes) :
    (t.set (temporary p).place (.file b)).Writable p := by
  apply h.kept (keptBut_set_file h.free b) _
    (NewFolders.set_file (fun _ => False) t (ne_root h.free) b) id
  intro q hq habove
  rw [List.mem_singleton.1 hq] at habove
  exact absurd habove.length_lt (Nat.lt_irrefl _)

/-- **The path is written, or it is said why it is not.** -/
theorem ends_replace (h : t.Writable p) (b : Bytes) :
    Ends (fun _ => True) Fault.IsExplained (t.replace p b).2 := by
  have hparent : p.parent.hasNul = false := by
    have hnul := h.nul
    unfold Path.hasNul at hnul ⊢
    rw [List.any_eq_false] at hnul ⊢
    exact fun n hn => hnul n ((List.dropLast_sublist p.names).subset hn)
  have hfolders := h.folders
  unfold replace
  simp only [hparent, h.nul, Bool.false_eq_true, if_false]
  split
  · rename_i hmade
    rw [hmade] at hfolders
    exact hfolders.ends_abandon
  · rename_i hmade
    rw [hmade] at hfolders
    split
    · exact hfolders.ends_abandon
    · rename_i hwrite
      obtain ⟨-, rfl⟩ := write_eq_ok hwrite
      split
      · exact (hfolders.written b).ends_abandon
      · exact trivial

/-- **A file that is written elsewhere leaves the way clear**, if neither it nor its temporary file
is above the path, and the temporary file of the path is not above it. -/
theorem replace (h : t.Writable p) (hp : p.IsAssembly) {q : Path} (hq : q.IsAssembly)
    (hup : Path.up ∉ q.names) (hfile : ¬ Above q.place p.place)
    (htemporary : ¬ Above (temporary q).place p.place)
    (hfolder : ¬ Above (temporary p).place q.place) (b : Bytes) :
    (t.replace q b).1.Writable p := by
  apply h.kept (replaced_replace (Path.place_ne_place_temporary hq hq) b t).kept _
    (newFolders_replace hup b t)
  · intro hprefix
    obtain ⟨ns, n, hnames⟩ := hq
    rw [Path.place_eq_names hup, hnames, above_concat_iff] at hfolder
    rw [hnames, List.dropLast_concat] at hprefix
    exact hfolder hprefix
  · intro r hr
    rw [above_temporary_iff hp]
    rcases List.mem_cons.1 hr with rfl | hr
    · exact hfile
    · rw [List.mem_singleton.1 hr]
      exact htemporary

end Writable

end FileTree

end Renaming
