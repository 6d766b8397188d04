import Renaming.Proofs.FileTree.Kept

/-!
# `Proofs/FileTree/Replaced` — a file is written as a whole or not at all

`replace` goes through a good many steps, each of which may fail and be cleaned up after. Only three
things are asked of it later, and `Replaced` holds them: outside the place of the file and that of
its temporary file nothing happens; after a success the file holds what was to be written and the
temporary file is gone; after a failure the file holds what it held before.

Nothing is said about the temporary file after a failure, because removing it can fail as well.
-/

set_option autoImplicit false

namespace Renaming

namespace FileTree

variable {t t' : FileTree} {p : Path} {b : Bytes}

/-! ## Making folders -/

theorem keptBut_ensureFolder (t : FileTree) (p : Path) : KeptBut [] t (t.ensureFolder p).1 := by
  unfold ensureFolder
  split
  · rename_i t' h
    obtain ⟨hnone, rfl⟩ := makeFolder_eq_ok h
    exact keptBut_set_folder hnone
  · split
    · exact .refl [] t
    · exact .refl [] t

theorem keptBut_makeFolders (root : Text) (ns : List Text) (t : FileTree) :
    KeptBut [] t (makeFolders root ns t).1 := by
  induction ns generalizing t with
  | nil => exact .refl [] t
  | cons n ns ih =>
    rw [makeFolders]
    split
    -- The folder around is missing, so it is made first.
    · have houter := ih t
      split
      · rename_i t' h
        rw [h] at houter
        exact houter.trans (keptBut_ensureFolder t' ⟨root, (n :: ns).reverse⟩)
      · exact houter
    · exact keptBut_ensureFolder t ⟨root, (n :: ns).reverse⟩

/-! ## Giving up -/

theorem keptBut_abandon (t : FileTree) (p : Path) :
    KeptBut [(temporary p).place] t (t.abandon p).1 := by
  unfold abandon
  split
  · rename_i t' h
    obtain ⟨hfile, rfl⟩ := remove_eq_ok h
    exact keptBut_erase hfile
  · exact .refl _ t
  · exact .refl _ t

theorem abandon_ne_ok (t : FileTree) (p : Path) : (t.abandon p).2 ≠ .ok () := by
  unfold abandon
  split <;> simp

/-! ## Replacing -/

/-- What is left when the content of a file was to be replaced. -/
structure Replaced (p : Path) (b : Bytes) (t : FileTree) (r : FileTree × Except Fault Unit) :
    Prop where
  kept : KeptBut [p.place, (temporary p).place] t r.1
  written : r.2 = .ok () → r.1.content? p.place = some b ∧ r.1.content? (temporary p).place = none
  restored : r.2 ≠ .ok () → r.1.content? p.place = t.content? p.place

/-- A write that is given up before the file itself was touched. -/
theorem replaced_abandon (hp : p.place ≠ (temporary p).place)
    (h : KeptBut [(temporary p).place] t t') : Replaced p b t (t'.abandon p) := by
  have hkept := h.trans (keptBut_abandon t' p)
  refine ⟨hkept.mono fun q => List.mem_cons_of_mem _, fun hok => ?_, fun _ => ?_⟩
  · exact absurd hok (abandon_ne_ok t' p)
  · exact hkept.content _ (by simpa using hp)

/-- A write that does not even begin to touch files. -/
theorem replaced_refused {f : Fault} (h : KeptBut [] t t') : Replaced p b t (t', .error f) := by
  refine ⟨h.mono fun q hq => absurd hq List.not_mem_nil, fun hok => ?_, fun _ => ?_⟩
  · cases hok
  · exact h.content _ List.not_mem_nil

/-- A temporary file that took the place of the file. -/
theorem replaced_move {t'' : FileTree} (hp : p.place ≠ (temporary p).place)
    (hfolders : KeptBut [] t t') (hwrite : t'.write (temporary p) b = .ok t'')
    {moved : FileTree} (hmove : t''.move (temporary p) p = .ok moved) :
    Replaced p b t (moved, .ok ()) := by
  obtain ⟨hfolder, rfl⟩ := write_eq_ok hwrite
  obtain ⟨c, hc, htarget, rfl⟩ := move_eq_ok hmove
  -- What is moved is what was written.
  rw [content?_set_file hfolder b] at hc
  cases hc
  generalize hbeside : t'.set (temporary p).place (.file b) = beside at htarget
  have hfile : beside.at? (temporary p).place ≠ some .folder := by
    rw [← hbeside, at?_set_self t' (ne_root hfolder)]
    simp
  have htarget' : (beside.erase (temporary p).place).at? p.place ≠ some .folder := by
    rw [at?_erase_of_ne beside hp]
    exact htarget
  have hset := keptBut_set_file htarget' b
  refine ⟨?_, fun _ => ⟨?_, ?_⟩, fun hne => absurd rfl hne⟩
  · have hwritten : KeptBut [(temporary p).place] t' beside := by
      rw [← hbeside]
      exact keptBut_set_file hfolder b
    have herased := hwritten.trans (keptBut_erase hfile)
    refine (hfolders.append (herased.append hset)).mono fun q hq => ?_
    simpa [or_comm] using hq
  · exact content?_set_file htarget' b
  · rw [hset.content _ (by simpa using Ne.symm hp), content?_erase hfile]

theorem replaced_replace (hp : p.place ≠ (temporary p).place) (b : Bytes) (t : FileTree) :
    Replaced p b t (t.replace p b) := by
  have hfolders := keptBut_makeFolders p.root p.names.dropLast.reverse t
  -- Before the temporary file is written, nothing at all has happened to files.
  have hweak : ∀ {t' : FileTree}, KeptBut [] t t' → KeptBut [(temporary p).place] t t' :=
    fun h => h.mono fun q hq => absurd hq List.not_mem_nil
  unfold replace
  split
  · exact replaced_refused (.refl [] t)
  · split
    · rename_i hmade
      rw [hmade] at hfolders
      exact replaced_abandon hp (hweak hfolders)
    · rename_i hmade
      rw [hmade] at hfolders
      split
      · exact replaced_refused hfolders
      · split
        · exact replaced_abandon hp (hweak hfolders)
        · rename_i hwrite
          split
          · obtain ⟨hfolder, rfl⟩ := write_eq_ok hwrite
            exact replaced_abandon hp ((hweak hfolders).trans (keptBut_set_file hfolder b))
          · rename_i hmove
            exact replaced_move hp hfolders hwrite hmove

end FileTree

end Renaming
