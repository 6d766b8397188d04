import Renaming.Proofs.FileTree.Explained
import Renaming.Proofs.FileTree.Failed

/-!
# `Proofs/FileTree/Undone` — a write that fails leaves nothing behind

Whatever keeps a file from being written, its old content stays and no temporary file is left
(`undone_replace`). What is said of the failure depends on the cleaning up, and can be told from the
tree that is left: only if the path to the temporary file leads nowhere there, or to nothing, is the
write reported as one that failed (`abandonedFault`); a plain file on the way, a folder in the place
of the temporary file and a name that is too long come to light while cleaning up, and take the
place of the report.

In a run over a folder each write is one of many. The others may come before and after it, and the
run is answered by one of those that fail (`undone_run`).
-/

set_option autoImplicit false

namespace Renaming

namespace FileTree

/-! ## No file is added -/

/-- There is no file at the place unless it was there before. -/
def AddsNoFile (q : Place) (t t' : FileTree) : Prop :=
  t'.content? q = none ∨ t'.content? q = t.content? q

namespace AddsNoFile

variable {q : Place} {t t' t'' : FileTree}

theorem refl (q : Place) (t : FileTree) : AddsNoFile q t t := .inr rfl

theorem trans (h : AddsNoFile q t t') (h' : AddsNoFile q t' t'') : AddsNoFile q t t'' := by
  obtain hnone | hsame := h'
  · exact .inl hnone
  · rw [AddsNoFile, hsame]
    exact h

end AddsNoFile

theorem KeptBut.addsNoFile {S : List Place} {t t' : FileTree} (h : KeptBut S t t') {q : Place}
    (hq : q ∉ S) : AddsNoFile q t t' := .inr (h.content q hq)

/-! ## Giving up -/

/-- The answer to a write that was given up, by what is found where its temporary file was. -/
def abandonedFault (p : Path) : DiskFault → Fault
  | .missing => .file (.unwritable p.text)
  | e => .path e.path

/-- A write is reported as one that failed only when there is no temporary file to be found. -/
theorem isExplained_abandonedFault_iff {p : Path} {e : DiskFault} :
    (abandonedFault p e).IsExplained ↔ e = .missing := by
  cases e with
  | missing => exact iff_of_true rfl rfl
  | throughFile | isFolder | taken | nameTooLong => exact iff_of_false nofun nofun

section Replace

variable {t t' : FileTree} {p : Path} {b : Bytes} {f : Fault}

/-- What was written can be removed. -/
theorem remove_of_write (h : t.write p b = .ok t') : t'.remove p = .ok (t'.erase p.place) := by
  have hplace : t.place p = .ok p.place := by
    cases hplace : t.place p with
    | error e =>
      rw [write, hplace] at h
      cases h
    | ok q => rw [place_eq hplace]
  obtain ⟨hfolder, rfl⟩ := write_eq_ok h
  have hthere := (keptBut_set_file hfolder b).place hplace
  rw [remove, hthere]
  simp only [bind, Except.bind, at?_set_self t (ne_root hfolder)]
  rfl

/-- What was removed cannot be removed again, because it is not there. -/
theorem remove_of_remove (h : t.remove p = .ok t') : t'.remove p = .error .missing := by
  have hplace : t.place p = .ok p.place := by
    cases hplace : t.place p with
    | error e =>
      rw [remove, hplace] at h
      cases h
    | ok q => rw [place_eq hplace]
  obtain ⟨hfolder, rfl⟩ := remove_eq_ok h
  have hthere := (keptBut_erase hfolder).place hplace
  rw [remove, hthere]
  simp only [bind, Except.bind, at?_erase_self t (ne_root hfolder)]
  rfl

theorem addsNoFile_abandon (t : FileTree) (p : Path) :
    AddsNoFile (temporary p).place t (t.abandon p).1 := by
  unfold abandon
  split
  · rename_i h
    obtain ⟨hfolder, rfl⟩ := remove_eq_ok h
    exact .inl (content?_erase hfolder)
  · exact .refl _ t
  · exact .refl _ t

/-- **The answer to a write that was given up can be told from the tree that is left.** -/
theorem abandon_snd (t : FileTree) (p : Path) :
    ∃ e, (t.abandon p).1.remove (temporary p) = .error e ∧
      (t.abandon p).2 = .error (abandonedFault p e) := by
  unfold abandon
  split
  · rename_i h
    exact ⟨.missing, remove_of_remove h, rfl⟩
  · rename_i h
    exact ⟨.missing, h, rfl⟩
  · rename_i e hne h
    refine ⟨e, h, ?_⟩
    cases e with
    | missing => exact absurd rfl hne
    | throughFile | isFolder | taken | nameTooLong => rfl

/-- A temporary file that was written is removed when it cannot take the place of the file. -/
theorem content?_abandon_of_write (h : t.write (temporary p) b = .ok t') :
    (t'.abandon p).1.content? (temporary p).place = none := by
  have hremove := remove_of_write h
  obtain ⟨hfolder, -⟩ := remove_eq_ok hremove
  rw [abandon, hremove]
  exact content?_erase hfolder

/-! ## Replacing -/

/-- What a write that failed has left, and how it was answered. -/
structure Undone (p : Path) (t left : FileTree) (f : Fault) : Prop where
  content : left.content? p.place = t.content? p.place
  temporary : AddsNoFile (temporary p).place t left
  fault : ∃ e, left.remove (FileTree.temporary p) = .error e ∧ f = abandonedFault p e

/-- A write that succeeds or fails adds no temporary file. -/
theorem addsNoFile_replace (hp : p.place ≠ (temporary p).place) (b : Bytes) (t : FileTree) :
    AddsNoFile (temporary p).place t (t.replace p b).1 := by
  have hfolders : AddsNoFile (temporary p).place t
      (makeFolders p.root p.names.dropLast.reverse t).1 :=
    (keptBut_makeFolders p.root p.names.dropLast.reverse t).addsNoFile List.not_mem_nil
  have hreplaced := replaced_replace hp b t
  revert hreplaced
  unfold replace
  split
  · exact fun _ => .refl _ t
  · split
    · rename_i hmade
      rw [hmade] at hfolders
      exact fun _ => hfolders.trans (addsNoFile_abandon _ p)
    · rename_i hmade
      rw [hmade] at hfolders
      split
      · exact fun _ => hfolders
      · split
        · exact fun _ => hfolders.trans (addsNoFile_abandon _ p)
        · rename_i hwrite
          split
          · exact fun _ => .inl (content?_abandon_of_write hwrite)
          · exact fun hreplaced => .inl (hreplaced.written rfl).2

/-- A write that fails was given up, unless its path is none. -/
theorem replace_eq_error (h : (t.replace p b).2 = .error f) (hpath : f ≠ .path .nulInName) :
    ∃ t' : FileTree, t.replace p b = t'.abandon p := by
  revert h
  unfold replace
  split
  · intro h
    cases h
    exact absurd rfl hpath
  · split
    · exact fun _ => ⟨_, rfl⟩
    · split
      · intro h
        cases h
        exact absurd rfl hpath
      · split
        · exact fun _ => ⟨_, rfl⟩
        · split
          · exact fun _ => ⟨_, rfl⟩
          · exact fun h => by cases h

/-- **A write that fails is undone.** -/
theorem undone_replace (hp : p.place ≠ (temporary p).place) (h : (t.replace p b).2 = .error f)
    (hpath : f ≠ .path .nulInName) : Undone p t (t.replace p b).1 f where
  content := (replaced_replace hp b t).restored (by simp [h])
  temporary := addsNoFile_replace hp b t
  fault := by
    obtain ⟨t', habandon⟩ := replace_eq_error h hpath
    obtain ⟨e, hremove, hfault⟩ := abandon_snd t' p
    rw [habandon] at h ⊢
    rw [hfault] at h
    cases h
    exact ⟨e, hremove, rfl⟩

end Replace

/-! ## Writes of a run -/

section Run

variable {table : Table} {input output : Path} {js before after : List Job} {j : Job}
  {t : FileTree}

theorem runJobs_append_fst (table : Table) (output : Path) (before after : List Job)
    (t : FileTree) :
    (runJobs table output (before ++ after) t).1 =
      (runJobs table output after (runJobs table output before t).1).1 := by
  induction before generalizing t with
  | nil => rfl
  | cons j before ih => exact ih (j.run table output t).1

/-- Each answer of a run is that of one job, done after those before it. -/
theorem mem_runJobs_snd_iff {r : Path × Except Fault Outcome} :
    r ∈ (runJobs table output js t).2 ↔ ∃ before j after, js = before ++ j :: after ∧
      r = (j.source, (j.run table output (runJobs table output before t).1).2) := by
  induction js generalizing t with
  | nil => simp [runJobs]
  | cons k js ih =>
    have hcons : r ∈ (runJobs table output (k :: js) t).2 ↔
        r = (k.source, (k.run table output t).2) ∨
          r ∈ (runJobs table output js (k.run table output t).1).2 := List.mem_cons
    rw [hcons, ih]
    constructor
    · rintro (rfl | ⟨before, j, after, rfl, rfl⟩)
      · exact ⟨[], k, js, rfl, rfl⟩
      · exact ⟨k :: before, j, after, rfl, rfl⟩
    · rintro ⟨before, j, after, hsplit, rfl⟩
      cases before with
      | nil =>
        cases hsplit
        exact .inl rfl
      | cons k' before =>
        cases hsplit
        exact .inr ⟨before, j, after, rfl, rfl⟩

/-- No run adds a file in the place of a temporary file. -/
theorem addsNoFile_runJobs {d : Path} (hd : d.IsAssembly) (h : AllAssembly table output js)
    (t : FileTree) : AddsNoFile (temporary d).place t (runJobs table output js t).1 := by
  induction js generalizing t with
  | nil => exact .refl _ t
  | cons j js ih =>
    have hj := h j List.mem_cons_self
    rw [runJobs_cons_fst]
    refine .trans ?_ (ih (fun k hk => h k (List.mem_cons_of_mem j hk)) _)
    rw [Job.run_fst]
    by_cases hplace : (temporary d).place =
        (temporary (j.product table output).destination).place
    · rw [hplace]
      exact addsNoFile_replace (Path.place_ne_place_temporary hj hj) _ t
    · have hfile := Path.place_ne_place_temporary hj hd
      exact (Job.replaced_run hj t).kept.addsNoFile (by simp [hplace, Ne.symm hfile])

/-- A job fails when its write does, with the same fault, or when its path is not spelt as one below
the output folder. -/
theorem Job.run_eq_error {g : Fault} (h : (j.run table output t).2 = .error g) :
    (t.replace (j.product table output).destination (j.product table output).content).2 = .error g ∨
      j.report table output = .error g := by
  rw [Job.run_snd] at h
  cases hr : (t.replace (j.product table output).destination
      (j.product table output).content).2 with
  | ok u =>
    rw [hr] at h
    exact .inr h
  | error f =>
    rw [hr] at h
    cases h
    exact .inl rfl

/-- A run with a job that fails is answered by a job that fails. -/
theorem outcomes_eq_error {order : List Job} (hperm : order.Perm js)
    (hsource : (js.map Job.source).Nodup) {f : Fault}
    (hr : (j.source, .error f) ∈ (runJobs table output order t).2) :
    ∃ k ∈ js, ∃ g, (k.source, .error g) ∈ (runJobs table output order t).2 ∧
      outcomes js (runJobs table output order t).2 = .error g := by
  cases hout : outcomes js (runJobs table output order t).2 with
  | ok os =>
    obtain ⟨o, ho⟩ := ok_of_outcomes hperm hsource hout _ hr
    cases ho
  | error g =>
    have hfound : ∀ r ∈ js.filterMap fun j => (runJobs table output order t).2.lookup j.source,
        Ends (fun _ => True) (fun g => ∃ k ∈ js,
          (k.source, .error g) ∈ (runJobs table output order t).2) r := by
      intro r hr
      obtain ⟨k, hk, hlookup⟩ := List.mem_filterMap.1 hr
      cases r with
      | ok o => exact trivial
      | error g =>
        obtain ⟨l₁, l₂, hsplit, -⟩ := List.lookup_eq_some_iff.1 hlookup
        exact ⟨k, hk, hsplit ▸ List.mem_append_right _ List.mem_cons_self⟩
    have hends := Ends.mapM (f := id) hfound
    rw [outcomes] at hout
    rw [hout] at hends
    obtain ⟨k, hk, hmem⟩ := hends
    exact ⟨k, hk, g, hmem, rfl⟩

/-- Among prepared jobs one that fails is reported as a write that failed. -/
theorem Prepared.fault_run (h : Prepared table output js t) (hassembly : AllAssembly table output js)
    {g : Fault} (hr : (j.source, .error g) ∈ (runJobs table output js t).2) :
    ∃ k ∈ js, g = .file (.unwritable (k.product table output).destination.text) := by
  have hexplained : g.IsExplained := h.ends_runJobs hassembly _ hr
  obtain ⟨before, k, after, hsplit, hrun⟩ := mem_runJobs_snd_iff.1 hr
  have hk : k ∈ js := hsplit ▸ List.mem_append_right before List.mem_cons_self
  refine ⟨k, hk, ?_⟩
  obtain hfail | hreport := Job.run_eq_error (congrArg Prod.snd hrun).symm
  · have hnul : g ≠ .path .nulInName := by
      rintro rfl
      cases hexplained
    obtain ⟨e, -, rfl⟩ := (undone_replace
      (Path.place_ne_place_temporary (hassembly k hk) (hassembly k hk)) hfail hnul).fault
    rw [isExplained_abandonedFault_iff.1 hexplained]
    rfl
  · obtain ⟨o, ho⟩ := Job.exists_report (h.below k hk)
    rw [ho] at hreport
    cases hreport

/-- A run keeps the content of a file that none of its jobs writes. -/
theorem content?_runJobs_of_ne {d : Path} (hd : d.IsAssembly) (h : AllAssembly table output js)
    (hplaces : ∀ k ∈ js, (k.product table output).destination.place ≠ d.place) (t : FileTree) :
    (runJobs table output js t).1.content? d.place = t.content? d.place := by
  refine (keptBut_runJobs h t).content _ fun hmem => ?_
  obtain ⟨k, hk, hplace | hplace⟩ := mem_touched_iff.1 hmem
  · exact hplaces k hk hplace.symm
  · exact Path.place_ne_place_temporary hd (h k hk) hplace

/-- A file that only one job writes keeps its content through the run when this job fails. -/
theorem content?_runJobs_of_undone (h : AllAssembly table output (before ++ j :: after))
    (hnodup : (before ++ j :: after).Nodup)
    (hundone : ((runJobs table output before t).1.replace (j.product table output).destination
        (j.product table output).content).2 ≠ .ok ())
    (halone : ∀ k ∈ before ++ j :: after, k ≠ j →
      (k.product table output).destination.place ≠ (j.product table output).destination.place) :
    (runJobs table output (before ++ j :: after) t).1.content?
        (j.product table output).destination.place =
      t.content? (j.product table output).destination.place := by
  obtain ⟨hbefore, hafter⟩ := List.forall_mem_append.1 h
  obtain ⟨hj, hafter⟩ := List.forall_mem_cons.1 hafter
  rw [List.nodup_append, List.nodup_cons] at hnodup
  obtain ⟨-, ⟨hnew, -⟩, hdisjoint⟩ := hnodup
  rw [runJobs_append_fst, runJobs_cons_fst, Job.run_fst]
  calc
    _ = ((runJobs table output before t).1.replace (j.product table output).destination
          (j.product table output).content).1.content?
          (j.product table output).destination.place := by
        refine content?_runJobs_of_ne hj hafter (fun k hk => ?_) _
        exact halone k (List.mem_append_right _ (List.mem_cons_of_mem j hk))
          (ne_of_mem_of_not_mem hk hnew)
    _ = (runJobs table output before t).1.content? (j.product table output).destination.place :=
        (Job.replaced_run hj _).restored hundone
    _ = t.content? (j.product table output).destination.place := by
        refine content?_runJobs_of_ne hj hbefore (fun k hk => ?_) t
        exact halone k (List.mem_append_left _ hk) (hdisjoint k hk j List.mem_cons_self)

/-- What a run leaves of a write that failed, and how it is answered. -/
structure UndoneRun (table : Table) (output : Path) (js order : List Job) (j : Job) (t : FileTree)
    (r : FileTree × Except Fault (List Outcome)) : Prop where
  temporary : AddsNoFile (FileTree.temporary (j.product table output).destination).place t r.1
  content : (∀ k ∈ js, k ≠ j →
      (k.product table output).destination.place ≠ (j.product table output).destination.place) →
    r.1.content? (j.product table output).destination.place =
      t.content? (j.product table output).destination.place
  answered : ∃ k ∈ js, ∃ g, (k.source, .error g) ∈ (runJobs table output order t).2 ∧
    r.2 = .error g
  reported : Prepared table output js t →
    ∃ k ∈ js, r.2 = .error (.file (.unwritable (k.product table output).destination.text))

/-- **A write that fails in a run is undone**, whatever is written before and after it. -/
theorem undone_remapIn {schedule : List Job → List Job} {workers : Int} {f : Fault} (ht : t.Proper)
    (hcheck : t.checkInput input output workers = .ok ()) (hread : t.jobs input = .ok js)
    (hschedule : (schedule js).Perm js) (hsplit : schedule js = before ++ j :: after)
    (hfail : ((runJobs table output before t).1.replace (j.product table output).destination
      (j.product table output).content).2 = .error f)
    (hpath : f ≠ .path .nulInName) :
    Undone (j.product table output).destination (runJobs table output before t).1
        (j.run table output (runJobs table output before t).1).1 f ∧
      UndoneRun table output js (schedule js) j t
        (t.remapIn schedule table input output workers) := by
  have hassembly := allAssembly_order hschedule
    (allAssembly_of_from table output (from_of_jobs ht hread))
  have hsource := nodup_sources_jobs ht hread
  have hj : j ∈ schedule js := hsplit ▸ List.mem_append_right before List.mem_cons_self
  have hplaces := Path.place_ne_place_temporary (hassembly j hj) (hassembly j hj)
  -- The job is answered by the fault of its write, so the run has no outcomes.
  have hrun : (j.run table output (runJobs table output before t).1).2 = .error f := by
    rw [Job.run_snd, hfail]
    rfl
  have hanswer : (j.source, .error f) ∈ (runJobs table output (schedule js) t).2 :=
    mem_runJobs_snd_iff.2 ⟨before, j, after, hsplit, by rw [hrun]⟩
  obtain ⟨k, hk, g, hmem, houtcomes⟩ := outcomes_eq_error hschedule hsource hanswer
  have hremap : t.remapIn schedule table input output workers =
      ((runJobs table output (schedule js) t).1, .error g) := by
    simp only [remapIn, hcheck, hread, bind, Except.bind, houtcomes]
  rw [Job.run_fst, hremap]
  refine ⟨undone_replace hplaces hfail hpath, ?_⟩
  constructor
  case temporary => exact addsNoFile_runJobs (hassembly j hj) hassembly t
  case content =>
    intro halone
    have hnodup : (schedule js).Nodup :=
      hschedule.nodup_iff.2 (List.Nodup.of_map Job.source hsource)
    have halone' : ∀ k ∈ schedule js, k ≠ j → (k.product table output).destination.place ≠
        (j.product table output).destination.place :=
      fun k hk => halone k (hschedule.mem_iff.1 hk)
    show (runJobs table output (schedule js) t).1.content? _ = _
    rw [hsplit] at hassembly hnodup halone' ⊢
    exact content?_runJobs_of_undone hassembly hnodup (by simp [hfail]) halone'
  case answered => exact ⟨k, hk, g, hmem, rfl⟩
  case reported =>
    intro hprepared
    obtain ⟨k', hk', rfl⟩ := (hprepared.subset hschedule.subset).fault_run hassembly hmem
    exact ⟨k', hschedule.mem_iff.1 hk', rfl⟩

end Run

/-! ## A folder in the way, and a file in the way -/

/-- The file of one class, and one thing more. -/
def folderWith (place : Place) (content : Bytes) : FileTree :=
  (folderOf "in" [("a.smali", ".class La;\n")]).addFile place content

def onlyJob : Job :=
  ⟨⟨['/'], ["in".toList, "a.smali".toList]⟩, ["a.smali".toList], Text.utf8 ".class La;\n".toList⟩

/-- A folder has the name that the file is to have. -/
def occupiedFolder : FileTree := folderWith ["out".toList, "b.smali".toList, "keep".toList] []

/-- The class is renamed. -/
def occupiedTable : Table := Table.empty.addClass "a".toList "b".toList .null

/-- The write fails because of the folder, and is undone. -/
theorem undone_remapIn_occupiedFolder :
    (occupiedFolder.replace (onlyJob.product occupiedTable (inRoot "out")).destination
        (onlyJob.product occupiedTable (inRoot "out")).content).2 =
      .error (.file (.unwritable "/out/b.smali".toList)) ∧
    Undone (onlyJob.product occupiedTable (inRoot "out")).destination occupiedFolder
      (onlyJob.run occupiedTable (inRoot "out") occupiedFolder).1
      (.file (.unwritable "/out/b.smali".toList)) ∧
    UndoneRun occupiedTable (inRoot "out") [onlyJob] [onlyJob] onlyJob occupiedFolder
      (occupiedFolder.remapIn id occupiedTable (inRoot "in") (inRoot "out") 1) := by
  have hproper : occupiedFolder.Proper := by
    unfold Proper
    decide +kernel
  have hjobs : occupiedFolder.jobs (inRoot "in") = .ok [onlyJob] := by decide +kernel
  have hfail : (occupiedFolder.replace (onlyJob.product occupiedTable (inRoot "out")).destination
      (onlyJob.product occupiedTable (inRoot "out")).content).2 =
        .error (.file (.unwritable "/out/b.smali".toList)) := by decide +kernel
  have hsplit : id [onlyJob] = [] ++ onlyJob :: [] := rfl
  exact ⟨hfail, undone_remapIn hproper rfl hjobs (List.Perm.refl _) hsplit hfail (by simp)⟩

/-- A plain file has the name of a folder that the file is to be put in. -/
def blockedFolder : FileTree := folderWith ["out".toList, "f".toList] (Text.utf8 "plain\n".toList)

/-- The class is put in a package. -/
def blockedTable : Table := Table.empty.addClass "a".toList "f/b".toList .null

/-- The folder around the file cannot be made, and this is not reported as a write that failed. -/
theorem unreported_blockedFolder :
    (makeFolders ['/'] ["f".toList, "out".toList] blockedFolder).2 = .error .taken ∧
    (onlyJob.product blockedTable (inRoot "out")).destination =
      ⟨['/'], ["out".toList, "f".toList, "b.smali".toList]⟩ ∧
    (blockedFolder.remap blockedTable (inRoot "in") (inRoot "out") 1).2 =
      .error (.path .throughFile) ∧
    ¬ ∃ g, (blockedFolder.remap blockedTable (inRoot "in") (inRoot "out") 1).2 =
      .error (.file g) := by
  have hremap : (blockedFolder.remap blockedTable (inRoot "in") (inRoot "out") 1).2 =
      .error (.path .throughFile) := by decide +kernel
  refine ⟨by decide +kernel, by decide +kernel, hremap, ?_⟩
  rintro ⟨g, hg⟩
  rw [hremap] at hg
  cases hg

end FileTree

end Renaming
