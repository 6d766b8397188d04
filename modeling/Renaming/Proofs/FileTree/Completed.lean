import Renaming.FileTree.Depth
import Renaming.Proofs.FileTree.Remapped

/-!
# `Proofs/FileTree/Completed` — which runs are completed

That all files can be read and written is not enough for a run to be completed. The look-ups of
every file have to fit on the stack; every destination has to be spelt below the output folder,
since the report of a file compares the two paths name by name after the file is written; and in
place, what is removed is named by its path from the root, which may be too long although the path
that was read is not (`Completable`). Only a class whose new name begins with a slash is not spelt
below the output folder (`Job.below?_product`), and it does not help its file to lie there by its
place: it is written and not reported (`refused_absoluteFolder`).

> Where all files can be read and written and no two are to be written to one place, a run in any
> order is completed and has lost and mixed nothing, if it is completable, and is refused otherwise
> for one of these reasons; and even then each file for which the stack was deep enough is renamed
> where it should go, and the rest of the tree is as it was (`completed_or_refused`).
-/

set_option autoImplicit false

namespace Renaming

namespace FileTree

/-- What a run needs besides files that can be read and written. -/
structure Completable (frames : Nat) (table : Table) (input output : Path) (js : List Job) :
    Prop where
  fits : ∀ j ∈ js, j.fits frames table = true
  below : ∀ j ∈ js, (output.below? (j.product table output).destination).isSome
  removable : Removable table input output js

/-- What a run has done to the tree `t` when `t'` is the tree afterwards, completed or not. -/
structure Salvaged (frames : Nat) (table : Table) (input output : Path) (js : List Job)
    (t t' : FileTree) : Prop where
  /-- A destination holds what was in its own source, renamed, if the source could be renamed. -/
  written : ∀ j ∈ js, j.fits frames table = true →
    t'.content? (j.product table output).destination.place = some (newContent table j.content)
  cleaned : ∀ j ∈ js, j.fits frames table = true →
    t'.content? (temporary (j.product table output).destination).place = none
  others : ∀ q, (∀ j ∈ js, q ∉ j.touched table output) →
    (input.normal = output.normal → ∀ j ∈ js, q ≠ j.source.place) → t'.content? q = t.content? q

/-- The reasons for which a run is refused whose files can be read and written. -/
inductive Hindrance : Fault → Prop
  | stackFull : Hindrance .stackFull
  | outsideOutput : Hindrance (.path .outsideOutput)
  | unremovable (p : Text) : Hindrance (.file (.unremovable p))

section

variable {frames : Nat} {schedule : List Job → List Job} {table : Table} {input output : Path}
  {workers : Int} {t t' : FileTree} {js order : List Job} {os : List Outcome}

/-- On a stack that is deep enough for every job, a run is as it is without a bound. -/
theorem remapWithin_of_fits
    (h : ∀ js, t.jobs input = .ok js → ∀ j ∈ schedule js, j.fits frames table = true) :
    t.remapWithin frames schedule table input output workers =
      t.remapIn schedule table input output workers := by
  unfold remapWithin
  cases hcheck : t.checkInput input output workers with
  | error f => simp only [remapIn, hcheck, bind, Except.bind]
  | ok u =>
    cases hread : t.jobs input with
    | error f => simp only [remapIn, hcheck, hread, bind, Except.bind]
    | ok js =>
      have hnone : ((schedule js).filter fun j => !j.fits frames table) = [] := by
        rw [List.filter_eq_nil_iff]
        intro j hj
        rw [h js hread j hj]
        exact Bool.false_ne_true
      simp only [bind, Except.bind, hnone]

/-! ## What is left when a run is refused -/

/-- When some jobs do not fit on the stack there are no outcomes. -/
theorem outcomes_stuck {others : List Job} (hperm : (order ++ others).Perm js)
    (hsource : (js.map Job.source).Nodup) (hwritten : allWritten table output order t = true)
    (hne : others ≠ []) :
    ∃ f, outcomes js ((runJobs table output order t).2 ++ stuck others) = .error f ∧
      Hindrance f := by
  have hresults : ∀ r ∈ (runJobs table output order t).2 ++ stuck others,
      Ends (fun _ => True) Hindrance r.2 := by
    intro r hr
    rcases List.mem_append.1 hr with hr | hr
    · rw [runJobs_snd hwritten] at hr
      obtain ⟨j, -, rfl⟩ := List.mem_map.1 hr
      cases hreport : j.report table output with
      | ok o => exact trivial
      | error f =>
        obtain rfl := Job.report_eq_error hreport
        exact .outsideOutput
    · obtain ⟨j, -, rfl⟩ := List.mem_map.1 hr
      exact .stackFull
  obtain ⟨os, hos, -⟩ | hrefused := (ends_outcomes hresults js).ok_or_error
  · -- the answer of a job that does not fit is among those that the outcomes are read from
    obtain ⟨j, others, rfl⟩ := List.exists_cons_of_ne_nil hne
    have hlookup : ((runJobs table output order t).2 ++ stuck (j :: others)).lookup j.source =
        some (.error .stackFull) := by
      refine lookup_of_mem ?_ (List.mem_append_right _ List.mem_cons_self)
      have hkeys : ((runJobs table output order t).2 ++ stuck (j :: others)).map Prod.fst =
          (order ++ j :: others).map Job.source := by
        rw [List.map_append, map_fst_runJobs, List.map_append, stuck, List.map_map]
        rfl
      rw [hkeys]
      exact (hperm.map Job.source).nodup_iff.2 hsource
    have hmem : (.error .stackFull : Except Fault Outcome) ∈
        js.filterMap fun j' => ((runJobs table output order t).2 ++ stuck (j :: others)).lookup
          j'.source :=
      List.mem_filterMap.2
        ⟨j, hperm.mem_iff.1 (List.mem_append_right _ List.mem_cons_self), hlookup⟩
    obtain ⟨o, -, ho⟩ := exists_mapM_of_mem hos hmem
    cases ho
  · exact hrefused

/-- A tree that differs from that after the jobs that fit in sources only, which are the
destinations of no job and are gone in place. -/
theorem salvaged_of_keptBut (ht : t.Proper) (hread : t.jobs input = .ok js)
    (hperm : order.Perm (js.filter (Job.fits frames table)))
    (hwritten : allWritten table output order t = true)
    (hdistinct : (js.map fun j => (j.product table output).destination.normal).Nodup)
    {gone : List Place} (hkept : KeptBut gone (runJobs table output order t).1 t')
    (hsources : ∀ q ∈ gone, input.normal = output.normal ∧ ∃ j ∈ js, q = j.source.place)
    (hfree : ∀ j ∈ js, (j.product table output).destination.place ∉ gone) :
    Salvaged frames table input output js t t' := by
  have hfrom := from_of_jobs ht hread
  have hassembly := allAssembly_of_from table output hfrom
  have hfitting : AllAssembly table output (js.filter (Job.fits frames table)) :=
    fun j hj => hassembly j (List.mem_filter.1 hj).1
  have hdone := allAssembly_order hperm hfitting
  constructor
  case written =>
    intro j hj hfits
    rw [hkept.content _ (hfree j hj)]
    exact content?_destination hperm hfitting hwritten
      (hdistinct.sublist (List.filter_sublist.map _)) (List.mem_filter.2 ⟨hj, hfits⟩)
  case cleaned =>
    intro j hj hfits
    rw [hkept.content]
    · exact content?_temporary_runJobs (hassembly j hj) hdone hwritten
        (.inl ⟨j, hperm.mem_iff.2 (List.mem_filter.2 ⟨hj, hfits⟩), rfl⟩)
    · intro hmem
      obtain ⟨-, k, hk, hplace⟩ := hsources _ hmem
      exact Path.place_ne_place_temporary (hfrom k hk).isAssembly (hassembly j hj) hplace.symm
  case others =>
    intro q hq hsource
    rw [hkept.content, (keptBut_runJobs hdone t).content]
    · intro hmem
      obtain ⟨j, hj, htouched⟩ := List.mem_flatMap.1 hmem
      exact hq j (List.mem_filter.1 (hperm.mem_iff.1 hj)).1 htouched
    · intro hmem
      obtain ⟨hsame, j, hj, hplace⟩ := hsources q hmem
      exact hsource hsame j hj hplace

/-! ## The run -/

/-- A run without a bound is refused for the spelling of a destination, or because what is to be
removed cannot be named. -/
theorem refused_remapIn (ht : t.Proper) (hinput : t.checkInput input output workers = .ok ())
    (hread : t.jobs input = .ok js) (hschedule : (schedule js).Perm js)
    (hfits : ∀ j ∈ js, j.fits frames table = true)
    (hwritten : allWritten table output (schedule js) t = true)
    (hdistinct : (js.map fun j => (j.product table output).destination.normal).Nodup)
    (hnot : ¬ Completable frames table input output js) :
    ∃ t' f, t.remapIn schedule table input output workers = (t', .error f) ∧ Hindrance f ∧
      Salvaged frames table input output js t t' := by
  have hsource := nodup_sources_jobs ht hread
  have houtcomes := outcomes_runJobs hschedule hsource hwritten
  have hall : js.filter (Job.fits frames table) = js := List.filter_eq_self.2 hfits
  have hperm : (schedule js).Perm (js.filter (Job.fits frames table)) := hall.symm ▸ hschedule
  simp only [remapIn, hinput, hread, houtcomes, bind, Except.bind]
  cases hreport : js.mapM (Job.report table output) with
  | error f =>
    -- the files are written all the same
    obtain ⟨-, j, -, hj, -⟩ := mapM_eq_error_iff.1 hreport
    obtain rfl := Job.report_eq_error hj
    exact ⟨_, _, rfl, .outsideOutput, salvaged_of_keptBut ht hread hperm hwritten hdistinct
      (.refl [] _) (fun q hq => absurd hq List.not_mem_nil) fun j _ => List.not_mem_nil⟩
  | ok os =>
    have hbelow : ∀ j ∈ js, (output.below? (j.product table output).destination).isSome := by
      intro j hj
      obtain ⟨o, -, ho⟩ := exists_mapM_of_mem hreport hj
      exact Job.below?_of_report ho
    dsimp only
    by_cases hsame : input.normal = output.normal
    · -- what is removed was a source and no destination
      have hkept := keptBut_removeSuperseded (os.map fun o => o.destination.normal) os
        (runJobs table output (schedule js) t).1
      have hsalvaged := salvaged_of_keptBut ht hread hperm hwritten hdistinct hkept
        (fun q hq => by
          obtain ⟨o, ho, rfl⟩ := List.mem_map.1 hq
          obtain ⟨j, hj, hjo⟩ := (mem_outcomes_iff hreport).1 (mem_superseded_iff.1 ho).1
          exact ⟨hsame, j, hj, by rw [(Job.report_eq_ok hjo).1]⟩)
        (fun j hj => by
          obtain ⟨o, ho, hjo⟩ := exists_mapM_of_mem hreport hj
          rw [← (Job.report_eq_ok hjo).2.1]
          exact destination_notMem_superseded ho)
      rw [if_pos hsame]
      generalize hremoved : removeSuperseded (os.map fun o => o.destination.normal) os
        (runJobs table output (schedule js) t).1 = r at hsalvaged
      obtain ⟨t', result⟩ := r
      cases result with
      | error f =>
        obtain ⟨p, rfl⟩ := removeSuperseded_eq_error (congrArg Prod.snd hremoved)
        exact ⟨t', _, rfl, .unremovable p, hsalvaged⟩
      | ok u =>
        have hshort := byteLength_le_of_removeSuperseded (congrArg Prod.snd hremoved)
        refine absurd ⟨hfits, hbelow, fun _ j hj hfree => ?_⟩ hnot
        obtain ⟨o, ho, hjo⟩ := exists_mapM_of_mem hreport hj
        rw [← (Job.report_eq_ok hjo).1] at hfree ⊢
        refine hshort o (mem_superseded_iff.2 ⟨ho, fun hmem => ?_⟩)
        obtain ⟨o', ho', hplace⟩ := List.mem_map.1 hmem
        obtain ⟨k, hk, hko⟩ := (mem_outcomes_iff hreport).1 ho'
        exact hfree k hk (by rw [← hplace, (Job.report_eq_ok hko).2.1])
    · exact absurd ⟨hfits, hbelow, fun h => absurd h hsame⟩ hnot

/-- Where all files can be read and written and no two are to be written to one place, a run in any
order is completed and has lost and mixed nothing, if it is completable, and is refused otherwise.
When it is refused, each file for which the stack was deep enough is renamed where it should go, and
the rest of the tree is as it was. -/
theorem completed_or_refused (ht : t.Proper)
    (hinput : t.checkInput input output workers = .ok ()) (hread : t.jobs input = .ok js)
    (hschedule : (schedule js).Perm js)
    (hwritten : allWritten table output ((schedule js).filter (Job.fits frames table)) t = true)
    (hdistinct : (js.map fun j => (j.product table output).destination.normal).Nodup) :
    (Completable frames table input output js →
      ∃ t' os, t.remapWithin frames schedule table input output workers = (t', .ok os) ∧
        Remapped table input output t t' os) ∧
    (¬ Completable frames table input output js →
      ∃ t' f, t.remapWithin frames schedule table input output workers = (t', .error f) ∧
        Hindrance f ∧ Salvaged frames table input output js t t') := by
  by_cases hfits : ∀ j ∈ js, j.fits frames table = true
  · have hscheduled : ∀ js', t.jobs input = .ok js' → ∀ j ∈ schedule js',
        j.fits frames table = true := by
      intro js' hread' j hj
      rw [hread] at hread'
      cases hread'
      exact hfits j (hschedule.mem_iff.1 hj)
    rw [List.filter_eq_self.2 (hscheduled js hread)] at hwritten
    rw [remapWithin_of_fits hscheduled]
    exact ⟨fun h => remapped_remapIn ht hinput hread hschedule hwritten h.below hdistinct h.removable,
      refused_remapIn ht hinput hread hschedule hfits hwritten hdistinct⟩
  · refine ⟨fun h => absurd h.fits hfits, fun _ => ?_⟩
    have hparts := (List.filter_append_perm (Job.fits frames table) (schedule js)).trans hschedule
    have hstuck : ((schedule js).filter fun j => !j.fits frames table) ≠ [] := by
      intro hnone
      refine hfits fun j hj => ?_
      have hfit := List.filter_eq_nil_iff.1 hnone j (hschedule.mem_iff.2 hj)
      simpa using hfit
    obtain ⟨f, hf, hhindrance⟩ :=
      outcomes_stuck hparts (nodup_sources_jobs ht hread) hwritten hstuck
    have hsalvaged := salvaged_of_keptBut ht hread (hschedule.filter _) hwritten hdistinct
      (.refl [] _) (fun q hq => absurd hq List.not_mem_nil) fun j _ => List.not_mem_nil
    refine ⟨_, f, ?_, hhindrance, hsalvaged⟩
    simp only [remapWithin, hinput, hread, bind, Except.bind]
    rw [hf]

end

/-! ## Two classes that change their names -/

/-- A folder of files with the lines that they hold. -/
def folderOf (name : String) (files : List (String × String)) : FileTree :=
  files.foldl (fun t f => t.addFile [name.toList, f.1.toList] (Text.utf8 f.2.toList)) empty

def inRoot (name : String) : Path := ⟨['/'], [name.toList]⟩

/-- Each of two files is to go where the other is, and a third has no part in it. -/
def swapFolder : FileTree :=
  folderOf "in" [("a.smali", ".class La;\n# first"), ("b.smali", ".class Lb;\n# second"),
    ("note", "third")]

/-- Two classes that take each other's names. -/
def swapTable : Table :=
  (Table.empty.addClass "a".toList "b".toList .null).addClass "b".toList "a".toList .null

def swapJobs : List Job :=
  [⟨⟨['/'], ["in".toList, "a.smali".toList]⟩, ["a.smali".toList],
      Text.utf8 ".class La;\n# first".toList⟩,
    ⟨⟨['/'], ["in".toList, "b.smali".toList]⟩, ["b.smali".toList],
      Text.utf8 ".class Lb;\n# second".toList⟩]

theorem completed_swap :
    swapFolder.jobs (inRoot "in") = .ok swapJobs ∧
      Completable 1000 swapTable (inRoot "in") (inRoot "in") swapJobs ∧
      ∃ t' os,
        swapFolder.remapWithin 1000 List.reverse swapTable (inRoot "in") (inRoot "in") 4 =
          (t', .ok os) ∧
        Remapped swapTable (inRoot "in") (inRoot "in") swapFolder t' os := by
  have hproper : swapFolder.Proper := by
    unfold Proper
    decide +kernel
  have hfound : swapFolder.find (inRoot "in") assemblySuffix =
      [["a.smali".toList], ["b.smali".toList]] :=
    find_of_pairwise rfl (by decide +kernel) (by decide +kernel)
  have hjobs : swapFolder.jobs (inRoot "in") = .ok swapJobs := by
    rw [jobs, hfound]
    decide +kernel
  have hwritten : allWritten swapTable (inRoot "in")
      ((List.reverse swapJobs).filter (Job.fits 1000 swapTable)) swapFolder = true := by
    decide +kernel
  have hdistinct : (swapJobs.map fun j =>
      (j.product swapTable (inRoot "in")).destination.normal).Nodup := by
    decide +kernel
  have hcompletable : Completable 1000 swapTable (inRoot "in") (inRoot "in") swapJobs :=
    { fits := by decide +kernel
      below := by decide +kernel
      removable := fun _ => by decide +kernel }
  have hcompleted := @completed_or_refused 1000 List.reverse swapTable (inRoot "in") (inRoot "in") 4
    swapFolder swapJobs hproper rfl hjobs (List.reverse_perm swapJobs) hwritten hdistinct
  exact ⟨hjobs, hcompletable, hcompleted.1 hcompletable⟩

/-! ## A class with an absolute name -/

/-- The name of the class in a file leads from the root to a place below the output folder. -/
def absoluteFolder : FileTree := folderOf "in" [("a.smali", ".class L/out/x;\n")]

/-- The job of the one file, when the input folder is named from the folder at hand. -/
def absoluteJob : Job :=
  ⟨⟨[], ["in".toList, "a.smali".toList]⟩, ["a.smali".toList],
    Text.utf8 ".class L/out/x;\n".toList⟩

/-- The file is read and written, and it is below the output folder, but nothing comes of the
run. -/
theorem refused_absoluteFolder :
    absoluteFolder.Proper ∧
      absoluteFolder.checkInput ⟨[], ["in".toList]⟩ ⟨[], ["out".toList]⟩ 1 = .ok () ∧
      absoluteFolder.jobs ⟨[], ["in".toList]⟩ = .ok [absoluteJob] ∧
      allWritten Table.empty ⟨[], ["out".toList]⟩ [absoluteJob] absoluteFolder = true ∧
      (absoluteJob.product Table.empty ⟨[], ["out".toList]⟩).destination.place =
        (Path.mk [] ["out".toList]).place ++ ["x.smali".toList] ∧
      (absoluteFolder.remapWithin 1000 id Table.empty ⟨[], ["in".toList]⟩ ⟨[], ["out".toList]⟩ 1).2 =
        .error (.path .outsideOutput) := by
  refine ⟨?_, rfl, by decide +kernel, by decide +kernel, by decide +kernel, by decide +kernel⟩
  unfold Proper
  decide +kernel

end FileTree

end Renaming
