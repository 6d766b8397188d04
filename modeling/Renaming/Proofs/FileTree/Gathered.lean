import Mathlib.Data.List.Nodup
import Renaming.Proofs.Ending
import Renaming.Proofs.FileTree.Kept
import Renaming.Proofs.OrderedMap

/-!
# `Proofs/FileTree/Gathered` — the jobs are the assembly files

The jobs of a run are made before anything is written: one for every name below the input folder
that ends as assembly files do, in the order of the names (`pairwise_jobs`). What is known of a job
is that its file was read (`Job.From`), and conversely that no file is left out
(`exists_job_of_content?`).

Two dots are no name of a file, which the type of file trees does not say and `Proper` does: without
it one and the same file could be told twice.
-/

set_option autoImplicit false

namespace Renaming

namespace FileTree

/-- No file or folder is named by two dots. -/
def Proper (t : FileTree) : Prop := ∀ q ∈ t.nodes.keys, Path.up ∉ q

/-! ## What is found -/

theorem mem_below_iff {t : FileTree} {p : Place} {ns : List Text} :
    ns ∈ t.below p ↔ ns ≠ [] ∧ p ++ ns ∈ t.nodes.keys := by
  unfold below
  rw [List.mem_filterMap]
  constructor
  · rintro ⟨q, hq, h⟩
    split at h
    · rename_i r rs hbehind
      cases h
      rw [Path.namesBehind_eq_some_iff] at hbehind
      subst hbehind
      exact ⟨List.cons_ne_nil r rs, hq⟩
    · cases h
  · rintro ⟨hne, hmem⟩
    refine ⟨p ++ ns, hmem, ?_⟩
    rw [Path.namesBehind_eq_some_iff.2 rfl]
    cases ns with
    | nil => exact absurd rfl hne
    | cons n ns => rfl

theorem nodup_below (t : FileTree) (p : Place) : (t.below p).Nodup := by
  refine List.Nodup.filterMap ?_ t.nodes.nodup_keys
  -- A place is told by the names behind `p`.
  intro q q' ns h h'
  split at h
  · rename_i r rs hbehind
    split at h'
    · rename_i r' rs' hbehind'
      cases h
      cases h'
      rw [Path.namesBehind_eq_some_iff] at hbehind hbehind'
      rw [hbehind, hbehind']
    · cases h'
  · cases h

theorem mem_find_iff {t : FileTree} {p : Path} {q : Place} (hq : t.place p = .ok q) {s : Text}
    {ns : List Text} :
    ns ∈ t.find p s ↔ (ns ≠ [] ∧ q ++ ns ∈ t.nodes.keys) ∧
      Text.endsWith s (ns.getLast?.getD []) = true := by
  unfold find
  rw [hq]
  rw [List.mem_mergeSort, List.mem_filter, mem_below_iff]

theorem nodup_find (t : FileTree) (p : Path) (s : Text) : (t.find p s).Nodup := by
  unfold find
  split
  · exact List.nodup_nil
  · rename_i q _
    exact (List.mergeSort_perm _ _).nodup_iff.2 ((nodup_below t q).filter _)

theorem pairwise_find (t : FileTree) (p : Path) (s : Text) :
    (t.find p s).Pairwise fun ns ms => Path.namesLe ns ms = true := by
  unfold find
  split
  · exact List.Pairwise.nil
  · exact Path.pairwise_mergeSort_namesLe _

/-- What is listed in order already is found as it is listed. -/
theorem find_of_pairwise {t : FileTree} {p : Path} {q : Place} (hq : t.place p = .ok q) {s : Text}
    {found : List (List Text)}
    (h : ((t.below q).filter fun ns => Text.endsWith s (ns.getLast?.getD [])) = found)
    (hsorted : found.Pairwise fun ns ms => Path.namesLe ns ms = true) : t.find p s = found := by
  rw [find, hq]
  dsimp only
  rw [h]
  exact List.mergeSort_of_pairwise hsorted

/-! ## What a job is -/

/-- The job for a file below the input folder, which was read for it. -/
structure Job.From (t : FileTree) (input : Path) (j : Job) : Prop where
  source : j.source = ⟨input.root, input.names ++ j.names⟩
  names : ∃ ns n, j.names = ns ++ [n ++ assemblySuffix]
  proper : Path.up ∉ j.names
  read : t.read j.source = .ok j.content

namespace Job.From

variable {t : FileTree} {input : Path} {j : Job}

theorem isAssembly (h : j.From t input) : j.source.IsAssembly := by
  obtain ⟨ns, n, hnames⟩ := h.names
  exact ⟨input.names ++ ns, n, by rw [h.source, hnames, List.append_assoc]⟩

theorem isAbsolute (h : j.From t input) : j.source.isAbsolute = input.isAbsolute := by
  rw [h.source]
  rfl

/-- A job's file has its place below that of the input folder. -/
theorem place (h : j.From t input) : j.source.place = input.place ++ j.names := by
  rw [h.source]
  exact Path.normalNames_append h.proper

theorem content (h : j.From t input) : t.content? j.source.place = some j.content :=
  (read_eq_ok_iff.1 h.read).2

theorem reached (h : j.From t input) : t.place j.source = .ok j.source.place :=
  (read_eq_ok_iff.1 h.read).1

end Job.From

theorem jobFor_eq_ok {t : FileTree} {input : Path} {ns : List Text} {j : Job}
    (h : t.jobFor input ns = .ok j) :
    j.names = ns ∧ j.source = ⟨input.root, input.names ++ ns⟩ ∧
      t.read j.source = .ok j.content := by
  unfold jobFor at h
  dsimp only at h
  split at h
  · rename_i b hread
    cases h
    exact ⟨rfl, rfl, hread⟩
  · cases h

/-! ## The jobs of a run -/

section Jobs

variable {t : FileTree} {input : Path} {js : List Job}

/-- The jobs are for what was found, in this order. -/
theorem map_names_jobs (h : t.jobs input = .ok js) :
    js.map Job.names = t.find input assemblySuffix := by
  rw [map_eq_of_mapM h fun ns j hj => (jobFor_eq_ok hj).1]
  exact List.map_id _

theorem from_of_jobs (ht : t.Proper) (h : t.jobs input = .ok js) : ∀ j ∈ js, j.From t input := by
  intro j hj
  obtain ⟨ns, hns, hread⟩ := exists_of_mem_mapM h hj
  obtain ⟨rfl, hsource, hcontent⟩ := jobFor_eq_ok hread
  cases hplace : t.place input with
  | error e =>
    rw [find, hplace] at hns
    cases hns
  | ok q =>
    obtain ⟨⟨hne, hkey⟩, hends⟩ := (mem_find_iff hplace).1 hns
    refine ⟨hsource, ?_, fun hup => ht _ hkey (List.mem_append_right q hup), hcontent⟩
    -- Names are not empty, so they are those in front of the last one, and the last one.
    obtain ⟨n, hn⟩ := List.isSuffixOf_iff_suffix.1 hends
    refine ⟨j.names.dropLast, n, ?_⟩
    rw [hn, List.getLast?_eq_some_getLast hne]
    exact (List.dropLast_concat_getLast hne).symm

/-- Every assembly file below the input folder has its job. -/
theorem exists_job_of_content? (hinput : t.place input = .ok input.place)
    (h : t.jobs input = .ok js) {ns : List Text} {n : Text} {b : Bytes}
    (hb : t.content? (input.place ++ (ns ++ [n ++ assemblySuffix])) = some b) :
    ∃ j ∈ js, j.names = ns ++ [n ++ assemblySuffix] := by
  have hne : input.place ++ (ns ++ [n ++ assemblySuffix]) ≠ [] := by simp
  have hkey : input.place ++ (ns ++ [n ++ assemblySuffix]) ∈ t.nodes.keys := by
    rw [content?_eq_some_iff, at?, if_neg hne] at hb
    rw [OrderedMap.mem_keys_iff, hb]
    rfl
  have hfound : ns ++ [n ++ assemblySuffix] ∈ t.find input assemblySuffix := by
    rw [mem_find_iff hinput]
    refine ⟨⟨by simp, hkey⟩, ?_⟩
    exact List.isSuffixOf_iff_suffix.2 ⟨n, by simp⟩
  rw [← map_names_jobs h] at hfound
  exact List.mem_map.1 hfound

theorem nodup_places_jobs (ht : t.Proper) (h : t.jobs input = .ok js) :
    (js.map fun j => j.source.place).Nodup := by
  have hnames : (js.map Job.names).Nodup := by
    rw [map_names_jobs h]
    exact nodup_find t input assemblySuffix
  have hplaces : js.map (fun j => j.source.place) = (js.map Job.names).map (input.place ++ ·) := by
    rw [List.map_map]
    exact List.map_congr_left fun j hj => (from_of_jobs ht h j hj).place
  rw [hplaces]
  exact hnames.map (List.append_right_injective input.place)

theorem nodup_sources_jobs (ht : t.Proper) (h : t.jobs input = .ok js) :
    (js.map Job.source).Nodup := by
  refine List.Nodup.of_map Path.place ?_
  rw [List.map_map]
  exact nodup_places_jobs ht h

end Jobs

end FileTree

end Renaming
