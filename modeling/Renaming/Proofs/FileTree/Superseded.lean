import Renaming.Proofs.FileTree.Kept

/-!
# `Proofs/FileTree/Superseded` — which files are removed at last

After a run in place the sources that no job has written are removed. They are named by their paths
without two dots, which lead where the paths themselves lead as long as no folder is gone
(`place_normal`), so a source that could be read can be removed (`removeSuperseded_eq_ok`). Whether
it can or not, nothing but such sources is ever removed (`keptBut_removeSuperseded`).
-/

set_option autoImplicit false

namespace Renaming

namespace FileTree

/-- The outcomes whose source no outcome has as its destination. -/
def superseded (written : List Path) (os : List Outcome) : List Outcome :=
  os.filter fun o => o.source.normal ∉ written

theorem mem_superseded_iff {written : List Path} {os : List Outcome} {o : Outcome} :
    o ∈ superseded written os ↔ o ∈ os ∧ o.source.normal ∉ written := by
  simp [superseded]

/-- A destination is no superseded source. -/
theorem destination_notMem_superseded {os : List Outcome} {o : Outcome} (ho : o ∈ os) :
    o.destination.place ∉
      (superseded (os.map fun o => o.destination.normal) os).map fun o => o.source.place := by
  intro hmem
  obtain ⟨k, hk, hplace⟩ := List.mem_map.1 hmem
  refine (mem_superseded_iff.1 hk).2 (List.mem_map.2 ⟨o, ho, ?_⟩)
  exact Path.normal_eq_iff.2 hplace.symm

theorem keptBut_removeSuperseded (written : List Path) (os : List Outcome) (t : FileTree) :
    KeptBut ((superseded written os).map fun o => o.source.place) t
      (removeSuperseded written os t).1 := by
  induction os generalizing t with
  | nil => exact .refl _ t
  | cons o os ih =>
    rw [removeSuperseded]
    split
    · rename_i hw
      rw [superseded, List.filter_cons_of_neg (by simpa using hw)]
      exact ih t
    · rename_i hw
      rw [superseded, List.filter_cons_of_pos (by simpa using hw), List.map_cons]
      split
      · rename_i t' h
        obtain ⟨hfile, rfl⟩ := remove_eq_ok h
        have hremoved := keptBut_erase hfile
        rw [Path.place_normal] at hremoved ⊢
        exact hremoved.append (ih _)
      · exact .refl _ t

/-- A file that a path leads to can be removed. -/
theorem remove_eq_ok_of_content? {t : FileTree} {p : Path} {b : Bytes}
    (hp : t.place p = .ok p.place) (hb : t.content? p.place = some b) :
    t.remove p = .ok (t.erase p.place) := by
  rw [content?_eq_some_iff] at hb
  simp [remove, hp, hb, bind, Except.bind, pure, Except.pure]

/-- Sources that can be read can be removed, and then they are gone. -/
theorem removeSuperseded_eq_ok {written : List Path} {os : List Outcome} {t : FileTree}
    (hplaces : (os.map fun o => o.source.place).Nodup)
    (hreached : ∀ o ∈ superseded written os, t.place o.source.normal = .ok o.source.place)
    (hcontent : ∀ o ∈ superseded written os, (t.content? o.source.place).isSome) :
    (removeSuperseded written os t).2 = .ok () ∧
      ∀ o ∈ superseded written os,
        (removeSuperseded written os t).1.content? o.source.place = none := by
  induction os generalizing t with
  | nil => exact ⟨rfl, fun o ho => absurd ho List.not_mem_nil⟩
  | cons o os ih =>
    rw [List.map_cons, List.nodup_cons] at hplaces
    rw [removeSuperseded]
    split
    · rename_i hw
      have hskip : superseded written (o :: os) = superseded written os :=
        List.filter_cons_of_neg (by simpa using hw)
      rw [hskip] at hreached hcontent ⊢
      exact ih hplaces.2 hreached hcontent
    · rename_i hw
      have htake : superseded written (o :: os) = o :: superseded written os :=
        List.filter_cons_of_pos (by simpa using hw)
      rw [htake] at hreached hcontent ⊢
      have ho := hreached o List.mem_cons_self
      obtain ⟨b, hb⟩ := Option.isSome_iff_exists.1 (hcontent o List.mem_cons_self)
      have hfile : t.at? o.source.place ≠ some .folder := by
        rw [content?_eq_some_iff.1 hb]
        simp
      have hremove : t.remove o.source.normal = .ok (t.erase o.source.place) := by
        rw [← Path.place_normal o.source] at ho hb ⊢
        exact remove_eq_ok_of_content? ho hb
      have hremoved := keptBut_erase hfile
      -- The other sources are where they were.
      have hother : ∀ o' ∈ superseded written os, o'.source.place ∉ [o.source.place] := by
        intro o' ho' hmem
        rw [List.mem_singleton] at hmem
        exact hplaces.1 (hmem ▸ List.mem_map_of_mem (mem_superseded_iff.1 ho').1)
      rw [hremove]
      obtain ⟨hok, hgone⟩ := ih (t := t.erase o.source.place) hplaces.2
        (fun o' ho' => hremoved.place (hreached o' (List.mem_cons_of_mem _ ho')))
        (fun o' ho' => by
          rw [hremoved.content _ (hother o' ho')]
          exact hcontent o' (List.mem_cons_of_mem _ ho'))
      refine ⟨hok, fun o' ho' => ?_⟩
      rcases List.mem_cons.1 ho' with rfl | ho'
      · have hkept := (keptBut_removeSuperseded written os (t.erase o'.source.place)).content
          o'.source.place
        refine (hkept ?_).trans (content?_erase hfile)
        rintro hmem
        obtain ⟨k, hk, hplace⟩ := List.mem_map.1 hmem
        exact hplaces.1 (hplace ▸ List.mem_map_of_mem (mem_superseded_iff.1 hk).1)
      · exact hgone o' ho'

/-- Every source that was removed could be named by its path without two dots. -/
theorem byteLength_le_of_removeSuperseded {written : List Path} {os : List Outcome} {t : FileTree}
    (h : (removeSuperseded written os t).2 = .ok ()) :
    ∀ o ∈ superseded written os, Path.byteLength o.source.normal.text ≤ maxPathBytes := by
  induction os generalizing t with
  | nil => exact fun o ho => absurd ho List.not_mem_nil
  | cons o os ih =>
    rw [removeSuperseded] at h
    split at h
    · rename_i hw
      rw [superseded, List.filter_cons_of_neg (by simpa using hw)]
      exact ih h
    · rename_i hw
      rw [superseded, List.filter_cons_of_pos (by simpa using hw), List.forall_mem_cons]
      split at h
      · rename_i t' hremove
        refine ⟨?_, ih h⟩
        by_contra hlong
        rw [remove, place, if_pos (Nat.lt_of_not_le hlong)] at hremove
        cases hremove
      · cases h

/-- A removal fails at a file that is named. -/
theorem removeSuperseded_eq_error {written : List Path} {os : List Outcome} {t : FileTree}
    {f : Fault} (h : (removeSuperseded written os t).2 = .error f) :
    ∃ p, f = .file (.unremovable p) := by
  induction os generalizing t with
  | nil => cases h
  | cons o os ih =>
    rw [removeSuperseded] at h
    split at h
    · exact ih h
    · split at h
      · exact ih h
      · cases h
        exact ⟨_, rfl⟩

end FileTree

end Renaming
