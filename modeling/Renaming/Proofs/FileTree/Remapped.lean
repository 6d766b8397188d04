import Renaming.Proofs.FileTree.Run
import Renaming.Proofs.FileTree.Superseded

/-!
# `Proofs/FileTree/Remapped` — a run loses and mixes nothing

What a run is for is said by `Remapped`, in terms of the tree before, the tree afterwards and the
outcomes alone: there is one outcome for each assembly file, its destination holds what was made of
it, and every other place keeps what it holds. In place it makes no difference whether the
destination of one file is the source of another. A run on a stack without a bound does this
whatever the order of its jobs, once every file can be read and written, no two are to be written to
one place, and each can be reported and its source removed (`remapped_remapIn`).
-/

set_option autoImplicit false

namespace Renaming

namespace FileTree

/-- What a run has made of the tree `t` when `t'` is the tree afterwards. -/
structure Remapped (table : Table) (input output : Path) (t t' : FileTree) (os : List Outcome) :
    Prop where
  /-- The sources are the assembly files below the input folder. -/
  complete : ∀ q, (∃ o ∈ os, o.source.place = q) ↔
    (t.content? q).isSome ∧ ∃ ns n, q = input.place ++ (ns ++ [n ++ assemblySuffix])
  distinct : (os.map fun o => o.source.place).Nodup
  sorted : os.Pairwise fun o o' => Path.namesLe o.source.names o'.source.names = true
  /-- Every destination holds what was in its own source, renamed. -/
  written : ∀ o ∈ os,
    t'.content? o.destination.place = (t.content? o.source.place).map (newContent table)
  same : ∀ o ∈ os, o.status ≠ .changed →
    t'.content? o.destination.place = t.content? o.source.place
  cleaned : ∀ o ∈ os, t'.content? (temporary o.destination).place = none
  /-- In place, a source that is no destination is gone. -/
  removed : input.normal = output.normal → ∀ o ∈ os,
    (∀ o' ∈ os, o'.destination.place ≠ o.source.place) → t'.content? o.source.place = none
  others : ∀ q, (∀ o ∈ os, q ≠ o.destination.place ∧ q ≠ (temporary o.destination).place) →
    (input.normal = output.normal → ∀ o ∈ os, q ≠ o.source.place) → t'.content? q = t.content? q

section

variable {schedule : List Job → List Job} {table : Table} {input output : Path} {workers : Int}
  {t : FileTree} {js : List Job} {os : List Outcome}

theorem allAssembly_of_from (table : Table) (output : Path) (hfrom : ∀ j ∈ js, j.From t input) :
    AllAssembly table output js :=
  fun j hj => Job.isAssembly_destination table output (hfrom j hj).names

theorem mem_outcomes_iff (h : js.mapM (Job.report table output) = .ok os) {o : Outcome} :
    o ∈ os ↔ ∃ j ∈ js, j.report table output = .ok o := by
  constructor
  · exact exists_of_mem_mapM h
  · rintro ⟨j, hj, ho⟩
    obtain ⟨o', ho', hreport⟩ := exists_mapM_of_mem h hj
    rw [ho] at hreport
    cases hreport
    exact ho'

/-! ## The parts -/

section Parts

variable (ht : t.Proper) (hread : t.jobs input = .ok js)
  (hreport : js.mapM (Job.report table output) = .ok os)

include ht hread hreport

theorem complete_of_jobs (hinput : t.place input = .ok input.place) (q : Place) :
    (∃ o ∈ os, o.source.place = q) ↔
      (t.content? q).isSome ∧ ∃ ns n, q = input.place ++ (ns ++ [n ++ assemblySuffix]) := by
  constructor
  · rintro ⟨o, ho, rfl⟩
    obtain ⟨j, hj, hjo⟩ := (mem_outcomes_iff hreport).1 ho
    have hfrom := from_of_jobs ht hread j hj
    rw [(Job.report_eq_ok hjo).1]
    refine ⟨by rw [hfrom.content]; rfl, ?_⟩
    obtain ⟨ns, n, hnames⟩ := hfrom.names
    exact ⟨ns, n, by rw [hfrom.place, hnames]⟩
  · rintro ⟨hsome, ns, n, rfl⟩
    obtain ⟨b, hb⟩ := Option.isSome_iff_exists.1 hsome
    obtain ⟨j, hj, hnames⟩ := exists_job_of_content? hinput hread hb
    obtain ⟨o, ho, hjo⟩ := exists_mapM_of_mem hreport hj
    refine ⟨o, ho, ?_⟩
    rw [(Job.report_eq_ok hjo).1, (from_of_jobs ht hread j hj).place, hnames]

theorem distinct_of_jobs : (os.map fun o => o.source.place).Nodup := by
  have hmap : os.map (fun o => o.source.place) = js.map fun j => j.source.place :=
    map_eq_of_mapM hreport fun _ _ h => by rw [(Job.report_eq_ok h).1]
  rw [hmap]
  exact nodup_places_jobs ht hread

theorem sorted_of_jobs :
    os.Pairwise fun o o' => Path.namesLe o.source.names o'.source.names = true := by
  have hmap : os.map (fun o => o.source.names) = js.map fun j => j.source.names :=
    map_eq_of_mapM hreport fun _ _ h => by rw [(Job.report_eq_ok h).1]
  have hnames : js.map (fun j => j.source.names) = (js.map Job.names).map (input.names ++ ·) := by
    rw [List.map_map]
    exact List.map_congr_left fun j hj => by
      rw [(from_of_jobs ht hread j hj).source]
      rfl
  rw [← List.pairwise_map (f := fun o : Outcome => o.source.names)
    (R := fun ns ms => Path.namesLe ns ms = true), hmap, hnames, List.pairwise_map,
    map_names_jobs hread]
  refine (pairwise_find t input assemblySuffix).imp fun h => ?_
  rw [Path.namesLe_append]
  exact h

end Parts

/-! ## The tree after the jobs -/

section Tree

variable {order : List Job} (hperm : order.Perm js)
  (hassembly : AllAssembly table output js)
  (hreport : js.mapM (Job.report table output) = .ok os)

include hperm hassembly

theorem allAssembly_order : AllAssembly table output order :=
  fun j hj => hassembly j (hperm.mem_iff.1 hj)

/-- Each destination holds what its own job wrote. -/
theorem content?_destination (hwritten : allWritten table output order t = true)
    (hdistinct : (js.map fun j => (j.product table output).destination.normal).Nodup) {j : Job}
    (hj : j ∈ js) :
    (runJobs table output order t).1.content? (j.product table output).destination.place =
      some (newContent table j.content) := by
  refine content?_runJobs_of_allWritten (hassembly j hj) (allAssembly_order hperm hassembly)
    hwritten (.inl ⟨j, hperm.mem_iff.2 hj, rfl⟩) fun k hk hplace => ?_
  have hkj : k = j :=
    List.inj_on_of_nodup_map hdistinct (hperm.mem_iff.1 hk) hj (Path.normal_eq_iff.2 hplace)
  rw [hkj]

include hreport

/-- What is no destination and no temporary file is as it was. -/
theorem content?_runJobs_of_untouched {q : Place}
    (hq : ∀ o ∈ os, q ≠ o.destination.place ∧ q ≠ (temporary o.destination).place) :
    (runJobs table output order t).1.content? q = t.content? q := by
  refine (keptBut_runJobs (allAssembly_order hperm hassembly) t).content q fun hmem => ?_
  obtain ⟨j, hj, htouched⟩ := mem_touched_iff.1 hmem
  obtain ⟨o, ho, hjo⟩ := exists_mapM_of_mem hreport (hperm.mem_iff.1 hj)
  rw [← (Job.report_eq_ok hjo).2.1] at htouched
  exact htouched.elim (hq o ho).1 (hq o ho).2

end Tree

/-- A source that no outcome has as its destination is as it was after the jobs. -/
theorem content?_superseded {order : List Job} (hperm : order.Perm js)
    (hfrom : ∀ j ∈ js, j.From t input) (hreport : js.mapM (Job.report table output) = .ok os)
    {o : Outcome} (ho : o ∈ superseded (os.map fun o => o.destination.normal) os) :
    ∃ j ∈ js, j.source = o.source ∧
      (runJobs table output order t).1.content? o.source.place = some j.content := by
  obtain ⟨ho, hfree⟩ := mem_superseded_iff.1 ho
  obtain ⟨j, hj, hjo⟩ := (mem_outcomes_iff hreport).1 ho
  have hsource := (Job.report_eq_ok hjo).1
  refine ⟨j, hj, hsource.symm, ?_⟩
  rw [content?_runJobs_of_untouched hperm (allAssembly_of_from table output hfrom) hreport, hsource]
  · exact (hfrom j hj).content
  · intro o' ho'
    obtain ⟨k, hk, hko⟩ := (mem_outcomes_iff hreport).1 ho'
    constructor
    · intro hplace
      exact hfree (List.mem_map.2 ⟨o', ho', Path.normal_eq_iff.2 hplace.symm⟩)
    · rw [hsource, (Job.report_eq_ok hko).2.1]
      exact Path.place_ne_place_temporary (hfrom j hj).isAssembly
        (allAssembly_of_from table output hfrom k hk)

/-! ## The run -/

/-- A tree that differs from that after the jobs in superseded sources only, which are gone in place
and never otherwise. -/
theorem remapped_of_keptBut (ht : t.Proper) (hinput : t.place input = .ok input.place)
    (hread : t.jobs input = .ok js) {order : List Job} (hperm : order.Perm js)
    (hwritten : allWritten table output order t = true)
    (hreport : js.mapM (Job.report table output) = .ok os)
    (hdistinct : (js.map fun j => (j.product table output).destination.normal).Nodup)
    {gone : List Outcome} {t' : FileTree}
    (hkept : KeptBut (gone.map fun o => o.source.place) (runJobs table output order t).1 t')
    (hgone : ∀ o ∈ gone, input.normal = output.normal ∧
      o ∈ superseded (os.map fun o => o.destination.normal) os)
    (hremoved : input.normal = output.normal →
      ∀ o ∈ superseded (os.map fun o => o.destination.normal) os,
        t'.content? o.source.place = none) :
    Remapped table input output t t' os := by
  have hfrom := from_of_jobs ht hread
  have hassembly := allAssembly_of_from table output hfrom
  -- What is removed is no destination, so all that the jobs have written is still there.
  have hdestination : ∀ o ∈ os, o.destination.place ∉ gone.map fun o => o.source.place := by
    intro o ho hmem
    obtain ⟨k, hk, hplace⟩ := List.mem_map.1 hmem
    exact destination_notMem_superseded ho (List.mem_map.2 ⟨k, (hgone k hk).2, hplace⟩)
  have hcontent : ∀ o ∈ os, ∃ j ∈ js, j.report table output = .ok o ∧
      t.content? o.source.place = some j.content ∧
      t'.content? o.destination.place = some (newContent table j.content) := by
    intro o ho
    obtain ⟨j, hj, hjo⟩ := (mem_outcomes_iff hreport).1 ho
    obtain ⟨hsource, hdest, -⟩ := Job.report_eq_ok hjo
    refine ⟨j, hj, hjo, by rw [hsource]; exact (hfrom j hj).content, ?_⟩
    rw [hkept.content _ (hdestination o ho), hdest]
    exact content?_destination hperm hassembly hwritten hdistinct hj
  refine ⟨complete_of_jobs ht hread hreport hinput, distinct_of_jobs ht hread hreport,
    sorted_of_jobs ht hread hreport, ?written, ?same, ?cleaned, ?removed, ?others⟩
  case written =>
    intro o ho
    obtain ⟨j, -, -, hbefore, hafter⟩ := hcontent o ho
    rw [hbefore, hafter]
    rfl
  case same =>
    intro o ho hstatus
    obtain ⟨j, -, hjo, hbefore, hafter⟩ := hcontent o ho
    rw [hbefore, hafter, Job.newContent_eq_of_status (Job.report_eq_ok hjo).2.2 hstatus]
  case cleaned =>
    intro o ho
    obtain ⟨j, hj, hjo⟩ := (mem_outcomes_iff hreport).1 ho
    rw [hkept.content, (Job.report_eq_ok hjo).2.1]
    · exact content?_temporary_runJobs (hassembly j hj) (allAssembly_order hperm hassembly) hwritten
        (.inl ⟨j, hperm.mem_iff.2 hj, rfl⟩)
    · intro hmem
      obtain ⟨k, hk, hplace⟩ := List.mem_map.1 hmem
      obtain ⟨i, hi, hik⟩ := (mem_outcomes_iff hreport).1 (mem_superseded_iff.1 (hgone k hk).2).1
      rw [(Job.report_eq_ok hik).1, (Job.report_eq_ok hjo).2.1] at hplace
      exact Path.place_ne_place_temporary (hfrom i hi).isAssembly (hassembly j hj) hplace
  case removed =>
    intro hplace o ho hfree
    refine hremoved hplace o (mem_superseded_iff.2 ⟨ho, fun hmem => ?_⟩)
    obtain ⟨o', ho', heq⟩ := List.mem_map.1 hmem
    exact hfree o' ho' (Path.normal_eq_iff.1 heq)
  case others =>
    intro q hq hsource
    rw [hkept.content, content?_runJobs_of_untouched hperm hassembly hreport hq]
    intro hmem
    obtain ⟨o, ho, hplace⟩ := List.mem_map.1 hmem
    exact hsource (hgone o ho).1 o (mem_superseded_iff.1 (hgone o ho).2).1 hplace.symm

/-- In place, what is removed is named by its path without two dots, and this is not too long. -/
def Removable (table : Table) (input output : Path) (js : List Job) : Prop :=
  input.normal = output.normal → ∀ j ∈ js,
    (∀ k ∈ js, (k.product table output).destination.normal ≠ j.source.normal) →
      Path.byteLength j.source.normal.text ≤ maxPathBytes

/-- No job has a superseded source as its destination. -/
theorem destination_ne_of_superseded (hreport : js.mapM (Job.report table output) = .ok os)
    {o : Outcome} (ho : o ∈ superseded (os.map fun o => o.destination.normal) os) :
    ∀ k ∈ js, (k.product table output).destination.normal ≠ o.source.normal := by
  intro k hk hplace
  obtain ⟨o', ho', hko⟩ := exists_mapM_of_mem hreport hk
  rw [← (Job.report_eq_ok hko).2.1] at hplace
  exact (mem_superseded_iff.1 ho).2 (List.mem_map.2 ⟨o', ho', hplace⟩)

/-- Superseded sources are removed after the jobs just when they can be named. -/
theorem removeSuperseded_runJobs (ht : t.Proper) (hread : t.jobs input = .ok js)
    (hsame : input.normal = output.normal) {order : List Job} (hperm : order.Perm js)
    (hreport : js.mapM (Job.report table output) = .ok os)
    (hremovable : Removable table input output js) :
    (removeSuperseded (os.map fun o => o.destination.normal) os
        (runJobs table output order t).1).2 = .ok () ∧
      ∀ o ∈ superseded (os.map fun o => o.destination.normal) os,
        (removeSuperseded (os.map fun o => o.destination.normal) os
          (runJobs table output order t).1).1.content? o.source.place = none := by
  have hfrom := from_of_jobs ht hread
  have hassembly := allAssembly_of_from table output hfrom
  refine removeSuperseded_eq_ok (distinct_of_jobs ht hread hreport) (fun o ho => ?_)
    (fun o ho => ?_)
  · obtain ⟨j, hj, hsource, -⟩ := content?_superseded hperm hfrom hreport ho
    have hfree := destination_ne_of_superseded hreport ho
    rw [← hsource] at hfree ⊢
    exact (keptBut_runJobs (allAssembly_order hperm hassembly) t).place
      (place_normal (hfrom j hj).reached fun _ => hremovable hsame j hj hfree)
  · obtain ⟨j, -, -, hcontent⟩ := content?_superseded hperm hfrom hreport ho
    rw [hcontent]
    rfl

/-- Where all files can be read and written, all destinations are spelt below the output folder and
each is at a place of its own, and what is removed in place can be named, a run in any order loses
and mixes nothing. -/
theorem remapped_remapIn (ht : t.Proper) (hinput : t.checkInput input output workers = .ok ())
    (hread : t.jobs input = .ok js) (hschedule : (schedule js).Perm js)
    (hwritten : allWritten table output (schedule js) t = true)
    (hbelow : ∀ j ∈ js, (output.below? (j.product table output).destination).isSome)
    (hdistinct : (js.map fun j => (j.product table output).destination.normal).Nodup)
    (hremovable : Removable table input output js) :
    ∃ t' os, t.remapIn schedule table input output workers = (t', .ok os) ∧
      Remapped table input output t t' os := by
  obtain ⟨os, hreport⟩ := exists_mapM fun j hj => Job.exists_report (hbelow j hj)
  have hsource := nodup_sources_jobs ht hread
  have houtcomes : outcomes js (runJobs table output (schedule js) t).2 = .ok os := by
    rw [outcomes_runJobs hschedule hsource hwritten, hreport]
  have hplace := place_of_checkInput hinput
  simp only [remapIn, hinput, hread, houtcomes, bind, Except.bind]
  by_cases hsame : input.normal = output.normal
  · obtain ⟨hok, hgone⟩ := removeSuperseded_runJobs ht hread hsame hschedule hreport hremovable
    have hkept := keptBut_removeSuperseded (os.map fun o => o.destination.normal) os
      (runJobs table output (schedule js) t).1
    rw [if_pos hsame]
    generalize removeSuperseded (os.map fun o => o.destination.normal) os
      (runJobs table output (schedule js) t).1 = r at hok hgone hkept
    obtain ⟨t', u⟩ := r
    cases hok
    exact ⟨t', os, rfl, remapped_of_keptBut ht hplace hread hschedule hwritten hreport hdistinct
      hkept (fun o ho => ⟨hsame, ho⟩) fun _ => hgone⟩
  · rw [if_neg hsame]
    exact ⟨_, os, rfl, remapped_of_keptBut ht hplace hread hschedule hwritten hreport
      hdistinct (.refl _ _) (fun o (ho : o ∈ []) => absurd ho List.not_mem_nil)
      fun h => absurd h hsame⟩

end

end FileTree

end Renaming
