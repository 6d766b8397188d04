import Renaming.Proofs.FileTree.Completed

/-!
# `Proofs/FileTree/Inside` — where a run writes

A run changes the files at the destinations of its jobs and those of their temporary files, and in
place it removes sources; it touches no other file (`mem_places_of_changed`). Copies are below
the output folder by their names. Of a renamed file this is so when the new name of its class spells
a path that does not start at a root and has no two dots in it (`within_of_changed`). Nothing
sees to that: the name is taken from the file as it stands, and a class whose name begins with two
dots is written beside the output folder (`outside_climbingFolder`).
-/

set_option autoImplicit false

namespace Renaming

/-- Whether a path, seen from a folder, stays below it. -/
def Path.Stays (p : Path) : Prop := p.isAbsolute = false ∧ Path.up ∉ p.names

namespace FileTree

/-- Whether a place is below another. -/
def Within (root q : Place) : Prop := ∃ ns, ns ≠ [] ∧ q = root ++ ns

variable {schedule : List Job → List Job} {table : Table} {input output : Path} {workers : Int}
  {t : FileTree} {js : List Job}

/-- Whether the classes of texts get names whose files stay below the output folder. -/
def Job.Stays (table : Table) (j : Job) : Prop :=
  ∀ text name, Text.ofUtf8? j.content = some text →
    (Assembly.rename table text).newName = some name →
    (Path.ofText (name ++ assemblySuffix)).Stays

/-! ## Destinations -/

theorem place_of_stays {q : Path} (h : q.Stays) :
    (output.join q).place = output.place ++ q.names := by
  rw [Path.join, if_neg (by simp [h.1])]
  exact Path.normalNames_append h.2

theorem within_destination {j : Job} (hj : j.From t input) (hstays : j.Stays table) :
    Within output.place (j.product table output).destination.place := by
  obtain ⟨hcopy, -⟩ | ⟨text, name, htext, hname, -, hproduct⟩ := Job.product_cases table output j
  · rw [hcopy]
    obtain ⟨ns, n, hnames⟩ := hj.names
    exact ⟨j.names, by simp [hnames], Path.normalNames_append hj.proper⟩
  · rw [hproduct]
    obtain ⟨ns, n, hnames⟩ := Path.isAssembly_ofText name
    exact ⟨_, by simp [hnames], place_of_stays (hstays text name htext hname)⟩

/-- What is in one folder is below the same folders. -/
theorem Within.sibling {root ns : Place} {n m : Text} (h : Within root (ns ++ [n])) :
    Within root (ns ++ [m]) := by
  obtain ⟨ms, hne, heq⟩ := h
  rw [← List.dropLast_concat_getLast hne, ← List.append_assoc] at heq
  obtain ⟨rfl, -⟩ := List.append_inj' heq rfl
  exact ⟨ms.dropLast ++ [m], by simp, by rw [List.append_assoc]⟩

/-- The temporary file is below the output folder when the file is. -/
theorem within_temporary {root : Place} {p : Path} (hp : p.IsAssembly) (h : Within root p.place) :
    Within root (temporary p).place := by
  obtain ⟨ns, n, hplace, htemporary⟩ := hp.places
  rw [hplace] at h
  rw [htemporary]
  exact h.sibling

theorem within_touched {j : Job} (hj : j.From t input) (hstays : j.Stays table) {q : Place}
    (hq : q ∈ j.touched table output) : Within output.place q := by
  have hdestination : Within output.place (j.product table output).destination.place :=
    within_destination hj hstays
  rcases List.mem_cons.1 hq with rfl | hq
  · exact hdestination
  · rw [List.mem_singleton.1 hq]
    exact within_temporary (Job.isAssembly_destination table output hj.names) hdestination

/-! ## The run -/

/-- A file that a run changes is one that a job may touch, or, in place, a source. -/
theorem mem_places_of_changed (ht : t.Proper)
    (hschedule : ∀ js, t.jobs input = .ok js → (schedule js).Perm js) {q : Place}
    (hq : (t.remapIn schedule table input output workers).1.content? q ≠ t.content? q) :
    ∃ js, t.jobs input = .ok js ∧ ∃ j ∈ js,
      q ∈ j.touched table output ∨ (input.normal = output.normal ∧ q = j.source.place) := by
  obtain hnothing | ⟨js, hread, hcases⟩ :=
    remapIn_fst_cases schedule table input output workers t
  · rw [hnothing] at hq
    exact absurd rfl hq
  · have hperm := hschedule js hread
    have hfrom := from_of_jobs ht hread
    have hkept := keptBut_runJobs (allAssembly_order hperm
      (allAssembly_of_from table output hfrom)) t
    refine ⟨js, hread, ?_⟩
    by_cases htouched : q ∈ (schedule js).flatMap (Job.touched table output)
    · obtain ⟨j, hj, hmem⟩ := List.mem_flatMap.1 htouched
      exact ⟨j, hperm.mem_iff.1 hj, .inl hmem⟩
    · obtain hrun | ⟨os, houtcomes, hsame, hremoved⟩ := hcases
      · rw [hrun, hkept.content q htouched] at hq
        exact absurd rfl hq
      · -- What the jobs have not touched can only have been removed, and only sources are.
        rw [hremoved] at hq
        have hsource : q ∈ (superseded (os.map fun o => o.destination.normal) os).map
            fun o => o.source.place := by
          by_contra hnot
          rw [(keptBut_removeSuperseded _ os _).content q hnot, hkept.content q htouched] at hq
          exact hq rfl
        obtain ⟨o, ho, rfl⟩ := List.mem_map.1 hsource
        have hsources := nodup_sources_jobs ht hread
        have hwritten := allWritten_of_outcomes hperm hsources houtcomes
        rw [outcomes_runJobs hperm hsources hwritten] at houtcomes
        obtain ⟨j, hj, hjo⟩ := exists_of_mem_mapM houtcomes (mem_superseded_iff.1 ho).1
        exact ⟨j, hj, .inr ⟨hsame, by rw [(Job.report_eq_ok hjo).1]⟩⟩

/-- When no class gets a name that leads out of the output folder, every file that a run writes is
inside it, the temporary ones included, and it changes nothing outside it. Trees have no links, so a
place is inside a folder when its names begin with those of the folder. -/
theorem within_of_changed (ht : t.Proper)
    (hschedule : ∀ js, t.jobs input = .ok js → (schedule js).Perm js)
    (hstays : ∀ js, t.jobs input = .ok js → ∀ j ∈ js, j.Stays table) :
    (∀ js, t.jobs input = .ok js → ∀ j ∈ js, ∀ q ∈ j.touched table output,
      Within output.place q) ∧
    ∀ q, (t.remapIn schedule table input output workers).1.content? q ≠ t.content? q →
      Within output.place q := by
  constructor
  · intro js hread j hj q hq
    exact within_touched (from_of_jobs ht hread j hj) (hstays js hread j hj) hq
  · intro q hq
    obtain ⟨js, hread, j, hj, htouched | ⟨hsame, rfl⟩⟩ := mem_places_of_changed ht hschedule hq
    · exact within_touched (from_of_jobs ht hread j hj) (hstays js hread j hj) htouched
    · have hfrom := from_of_jobs ht hread j hj
      obtain ⟨ns, n, hnames⟩ := hfrom.names
      refine ⟨j.names, by simp [hnames], ?_⟩
      rw [hfrom.place, Path.normal_eq_iff.1 hsame]

/-- A folder with one file, whose class stays below the output folder. -/
def stayingFolder : FileTree := folderOf "in" [("a.smali", ".class La/b;\n")]

theorem within_stayingFolder :
    (stayingFolder.remapIn id Table.empty (inRoot "in") (inRoot "out") 1).1.content?
        ["out".toList, "a".toList, "b.smali".toList] ≠
      stayingFolder.content? ["out".toList, "a".toList, "b.smali".toList] ∧
    Within (inRoot "out").place ["out".toList, "a".toList, "b.smali".toList] := by
  have hchanged : (stayingFolder.remapIn id Table.empty (inRoot "in") (inRoot "out") 1).1.content?
        ["out".toList, "a".toList, "b.smali".toList] ≠
      stayingFolder.content? ["out".toList, "a".toList, "b.smali".toList] := by
    decide +kernel
  have hjobs : stayingFolder.jobs (inRoot "in") =
      .ok [⟨⟨['/'], ["in".toList, "a.smali".toList]⟩, ["a.smali".toList],
        Text.utf8 ".class La/b;\n".toList⟩] := by decide +kernel
  refine ⟨hchanged, (within_of_changed ?_ (fun js _ => List.Perm.refl js) ?_).2 _ hchanged⟩
  · unfold Proper
    decide +kernel
  · intro js hread j hj text name htext hname
    rw [hjobs] at hread
    cases hread
    rw [List.mem_singleton.1 hj] at htext
    have htext' : Text.ofUtf8? (Text.utf8 ".class La/b;\n".toList) =
        some ".class La/b;\n".toList := by
      decide +kernel
    rw [htext'] at htext
    cases htext
    have hrename : (Assembly.rename Table.empty ".class La/b;\n".toList).newName =
        some "a/b".toList := by
      decide +kernel
    rw [hrename] at hname
    cases hname
    exact ⟨by decide +kernel, by decide +kernel⟩

/-! ## A class that climbs out -/

/-- A class whose name begins with two dots. -/
def climbingFolder : FileTree := folderOf "in" [("a.smali", ".class L../x;\n")]

theorem outside_climbingFolder :
    ∃ q, (climbingFolder.remap Table.empty (inRoot "in") (inRoot "out") 1).1.content? q ≠
        climbingFolder.content? q ∧ ¬ Within (inRoot "out").place q := by
  refine ⟨["x.smali".toList], by decide +kernel, ?_⟩
  rintro ⟨ns, hne, heq⟩
  cases heq

end FileTree

end Renaming
