import Renaming.CommandLine.Sources
import Renaming.Proofs.Ending
import Renaming.Proofs.Text.Span

/-!
# `Proofs/CommandLine/Sources` — options that fit the mapping files

Pairs of namespaces, numbers of files to be reversed and the files themselves are checked one after
the other, some of them only when the file before is in order. Which options pass is said here at
once, without an order (`Fits`), and so is what they ask for (`Asks`): the `i`-th source is the
`i`-th file, with the names of the `i`-th pair, and is reversed when `i` is among the numbers. Every
request ends in one of three ways (`sources_outcome`):

> it is answered when the options fit, it is refused with a fault of the options when they do not,
> and it breaks off when a path whose name is too long comes up first (`Stumbles`).

Nobody asks for the third way: the check whether a file is there is itself what fails
(`sources_overlong`).
-/

set_option autoImplicit false

namespace Renaming

namespace CommandLine

variable {here : Path} {t : FileTree} {o : MappingOptions}

namespace MappingOptions

/-- The pair of namespaces with number `i` without blanks around it, empty if there is none. -/
def pair (o : MappingOptions) (i : Nat) : Text :=
  ((Text.splitOn ',' o.namespaces)[i]?.map Text.trim).getD []

/-- The two lists of the options do not go beyond the list of files. -/
structure Listed (o : MappingOptions) : Prop where
  /-- There are no more pairs than files. An empty option has no pairs. -/
  pairs : o.namespaces ≠ [] → (Text.splitOn ',' o.namespaces).length ≤ o.mappings.length
  /-- What is listed for reversal, blanks apart, are numbers of files. -/
  numbers : ∀ item ∈ Text.splitOn ',' o.reverse, Text.isBlankText item = false →
    ∃ n, Text.readInt item = some n ∧ 0 ≤ n ∧ n < o.mappings.length

/-- The options fit the mapping files. -/
structure Fits (here : Path) (t : FileTree) (o : MappingOptions) : Prop extends Listed o where
  /-- Every path leads to a file. -/
  files : ∀ m ∈ o.mappings, ∃ b, t.look (here.join (Path.ofText m)) = .ok (some (.file b))
  /-- Every pair that is not blank has a colon. -/
  colons : ∀ p ∈ Text.splitOn ',' o.namespaces, Text.isBlankText p = false → ':' ∈ p

/-- The source that the options ask for with the number `i`, the number of the file `m`. -/
structure Asks (o : MappingOptions) (i : Nat) (m : Text) (s : MappingSource) : Prop where
  path : s.path = Path.ofText m
  /-- The names stand around the first colon of the pair, and an empty one is left out. -/
  names : ∀ source target : Text, o.pair i = source ++ ':' :: target → ':' ∉ source →
    s.step.source = Text.nonempty? source ∧ s.step.target = Text.nonempty? target
  /-- Without a pair there are no names. -/
  noNames : o.pair i = [] → s.step.source = none ∧ s.step.target = none
  reverse : s.step.reverse = true ↔
    ∃ item ∈ Text.splitOn ',' o.reverse, Text.readInt item = some (i : Int)

/-- A file is in order: it is there, and its pair has a colon. -/
structure FileFits (here : Path) (t : FileTree) (o : MappingOptions) (i : Nat) (m : Text) :
    Prop where
  file : ∃ b, t.look (here.join (Path.ofText m)) = .ok (some (.file b))
  colon : o.pair i ≠ [] → ':' ∈ o.pair i

/-- The first file that is not in order has a path that cannot be looked for. -/
structure Stumbles (here : Path) (t : FileTree) (o : MappingOptions) : Prop extends Listed o where
  tooLong : ∃ (i : Nat) (m : Text), o.mappings[i]? = some m ∧
    (∃ f, t.look (here.join (Path.ofText m)) = .error f) ∧
    ∀ (j : Nat) (m' : Text), j < i → o.mappings[j]? = some m' → o.FileFits here t j m'

/-! ## The lists of the options -/

theorem getD_namespacePairs (i : Nat) :
    (namespacePairs o.namespaces)[i]?.getD [] = o.pair i := by
  unfold namespacePairs pair
  split
  · rename_i h
    rw [h]
    cases i <;> rfl
  · rw [List.getElem?_map]

theorem length_namespacePairs_le_iff {n : Nat} : (namespacePairs o.namespaces).length ≤ n ↔
    (o.namespaces ≠ [] → (Text.splitOn ',' o.namespaces).length ≤ n) := by
  unfold namespacePairs
  split
  · rename_i h
    exact iff_of_true (Nat.zero_le n) fun hne => absurd h hne
  · rename_i h
    rw [List.length_map]
    exact ⟨fun hle _ => hle, fun hle => hle h⟩

/-- The numbers that are read are those of the items. -/
theorem mem_reverseIndexes?_iff {option : Text} {indexes : List Int}
    (h : reverseIndexes? option = some indexes) {n : Int} :
    n ∈ indexes ↔ ∃ item ∈ Text.splitOn ',' option, Text.readInt item = some n := by
  have hread := mapM_eq_some_iff.1 h
  have hmem : n ∈ indexes ↔ some n ∈ indexes.map some := by
    rw [List.mem_map]
    exact ⟨fun hn => ⟨n, hn, rfl⟩, fun ⟨m, hm, e⟩ => Option.some.inj e ▸ hm⟩
  rw [hmem, ← hread, List.mem_map]
  constructor
  · rintro ⟨item, hitem, hn⟩
    exact ⟨item, (List.mem_filter.1 hitem).1, hn⟩
  · rintro ⟨item, hitem, hn⟩
    refine ⟨item, List.mem_filter.2 ⟨hitem, ?_⟩, hn⟩
    rw [Text.isBlankText_of_readInt hn]
    rfl

theorem outOfRange_eq_nil_iff {length : Nat} {indexes : List Int} :
    outOfRange length indexes = [] ↔ ∀ n ∈ indexes, 0 ≤ n ∧ n < length := by
  have hnil : outOfRange length indexes = [] ↔
      (indexes.filter fun n : Int => n < 0 ∨ (length : Int) ≤ n) = [] := by
    unfold outOfRange
    rw [List.eq_nil_iff_forall_not_mem, List.eq_nil_iff_forall_not_mem]
    refine forall_congr' fun n => not_congr ?_
    rw [List.mem_mergeSort, List.mem_eraseDups]
  rw [hnil, List.filter_eq_nil_iff]
  refine forall₂_congr fun n _ => ?_
  rw [decide_eq_true_iff]
  omega

/-- The list for reversal is in order when its items are numbers of files. -/
theorem exists_indexes_iff {option : Text} {length : Nat} :
    (∃ indexes, reverseIndexes? option = some indexes ∧ outOfRange length indexes = []) ↔
      ∀ item ∈ Text.splitOn ',' option, Text.isBlankText item = false →
        ∃ n, Text.readInt item = some n ∧ 0 ≤ n ∧ n < length := by
  constructor
  · rintro ⟨indexes, hread, hrange⟩ item hitem hblank
    obtain ⟨n, hn⟩ := exists_mapM_eq_some_iff.1 ⟨indexes, hread⟩ item
      (List.mem_filter.2 ⟨hitem, by rw [hblank]; rfl⟩)
    exact ⟨n, hn, outOfRange_eq_nil_iff.1 hrange n
      ((mem_reverseIndexes?_iff hread).2 ⟨item, hitem, hn⟩)⟩
  · intro h
    have hitems : ∀ item ∈ (Text.splitOn ',' option).filter fun i => !Text.isBlankText i,
        ∃ n, Text.readInt item = some n ∧ 0 ≤ n ∧ n < length := by
      intro item hitem
      obtain ⟨hmem, hblank⟩ := List.mem_filter.1 hitem
      exact h item hmem (Bool.not_eq_true' _ ▸ hblank)
    obtain ⟨indexes, hread⟩ := exists_mapM_eq_some_iff.2 fun item hitem =>
      (hitems item hitem).imp fun n hn => hn.1
    refine ⟨indexes, hread, outOfRange_eq_nil_iff.2 fun n hn => ?_⟩
    obtain ⟨item, hitem, hn⟩ := (mem_reverseIndexes?_iff hread).1 hn
    obtain ⟨n', hn', hrange⟩ := h item hitem (Text.isBlankText_of_readInt hn)
    rw [hn] at hn'
    cases hn'
    exact hrange

/-- Lists that are in order are gone through file by file. -/
theorem Listed.sources_eq (h : o.Listed) (here : Path) (t : FileTree) :
    ∃ indexes, reverseIndexes? o.reverse = some indexes ∧
      sources here t o =
        sourcesFrom here t (namespacePairs o.namespaces) indexes 0 o.mappings := by
  obtain ⟨indexes, hread, hrange⟩ := exists_indexes_iff.2 h.numbers
  refine ⟨indexes, hread, ?_⟩
  have hpairs := length_namespacePairs_le_iff.2 h.pairs
  unfold sources
  dsimp only
  rw [if_neg (Nat.not_lt.2 hpairs), hread]
  dsimp only
  rw [hrange]

theorem exists_sources_of_not_listed (h : ¬ o.Listed) :
    ∃ v, sources here t o = .error (.option v) := by
  unfold sources
  dsimp only
  split
  · exact ⟨_, rfl⟩
  · rename_i hpairs
    split
    · exact ⟨_, rfl⟩
    · rename_i indexes hread
      split
      · rename_i hrange
        exact absurd ⟨length_namespacePairs_le_iff.1 (Nat.not_lt.1 hpairs),
          exists_indexes_iff.1 ⟨indexes, hread, hrange⟩⟩ h
      · exact ⟨_, rfl⟩

/-! ## One file -/

theorem namespacesOf_append {source : Text} (h : ':' ∉ source) (target : Text) :
    namespacesOf (source ++ ':' :: target) =
      .ok (Text.nonempty? source, Text.nonempty? target) := by
  rw [namespacesOf, if_neg (by simp), Text.cut_eq_some_iff.2 ⟨rfl, h⟩]

theorem namespacesOf_of_notMem {p : Text} (hne : p ≠ []) (h : ':' ∉ p) :
    namespacesOf p = .error (.option (.pairWithoutColon p)) := by
  rw [namespacesOf, if_neg hne, Text.cut_eq_none_iff.2 h]

section File

variable {indexes : List Int} {i : Nat} {m : Text}

theorem sourceOf_of_file {b : Bytes}
    (h : t.look (here.join (Path.ofText m)) = .ok (some (.file b))) :
    sourceOf here t (namespacePairs o.namespaces) indexes i m =
      namespacesOf (o.pair i) >>= fun names =>
        .ok ⟨Path.ofText m, names.1, names.2, indexes.contains (i : Int)⟩ := by
  unfold sourceOf existingFile
  dsimp only
  rw [h, getD_namespacePairs]
  rfl

/-- The source of a file that is in order is the one that is asked for. -/
theorem FileFits.exists_sourceOf (hread : reverseIndexes? o.reverse = some indexes)
    (h : o.FileFits here t i m) :
    ∃ s, sourceOf here t (namespacePairs o.namespaces) indexes i m = .ok s ∧ o.Asks i m s := by
  obtain ⟨b, hb⟩ := h.file
  have hreverse : indexes.contains (i : Int) = true ↔
      ∃ item ∈ Text.splitOn ',' o.reverse, Text.readInt item = some (i : Int) :=
    List.contains_iff_mem.trans (mem_reverseIndexes?_iff hread)
  rw [sourceOf_of_file hb]
  by_cases hpair : o.pair i = []
  · rw [hpair]
    refine ⟨_, rfl, rfl, fun source target hnames => ?_, fun _ => ⟨rfl, rfl⟩, hreverse⟩
    rw [hpair] at hnames
    exact absurd hnames.symm (by simp)
  · obtain ⟨source, target, hnames, hsource⟩ := List.eq_append_cons_of_mem (h.colon hpair)
    have hcut := Text.cut_eq_some_iff.2 ⟨hnames, hsource⟩
    rw [hnames, namespacesOf_append hsource]
    refine ⟨_, rfl, rfl, fun source' target' hnames' hsource' => ?_, fun h => absurd h hpair,
      hreverse⟩
    -- a pair is cut in one way only
    rw [Text.cut_eq_some_iff.2 ⟨hnames', hsource'⟩] at hcut
    cases hcut
    exact ⟨rfl, rfl⟩

theorem sourceOf_of_look_eq_error {f : DiskFault}
    (h : t.look (here.join (Path.ofText m)) = .error f) :
    sourceOf here t (namespacePairs o.namespaces) indexes i m = .error (.path .nameTooLong) := by
  unfold sourceOf existingFile
  dsimp only
  rw [h]
  rfl

/-- A file that is not in order is a fault of the options, if its path can be looked for. -/
theorem exists_sourceOf_of_not_fileFits (indexes : List Int) {n : Option Node}
    (hlook : t.look (here.join (Path.ofText m)) = .ok n) (h : ¬ o.FileFits here t i m) :
    ∃ v, sourceOf here t (namespacePairs o.namespaces) indexes i m = .error (.option v) := by
  by_cases hfile : ∃ b, n = some (.file b)
  · obtain ⟨b, rfl⟩ := hfile
    have hcolon : ¬ (o.pair i ≠ [] → ':' ∈ o.pair i) := fun hcolon => h ⟨⟨b, hlook⟩, hcolon⟩
    rw [Classical.not_imp] at hcolon
    rw [sourceOf_of_file hlook, namespacesOf_of_notMem hcolon.1 hcolon.2]
    exact ⟨_, rfl⟩
  · unfold sourceOf existingFile
    dsimp only
    rw [hlook]
    split
    · contradiction
    · rename_i b hb
      exact absurd ⟨b, Except.ok.inj hb⟩ hfile
    · exact ⟨_, rfl⟩

/-- Only a file that is in order has a source. -/
theorem fileFits_of_sourceOf {s : MappingSource}
    (h : sourceOf here t (namespacePairs o.namespaces) indexes i m = .ok s) :
    o.FileFits here t i m := by
  by_contra hfit
  cases hlook : t.look (here.join (Path.ofText m)) with
  | error f =>
    rw [sourceOf_of_look_eq_error hlook] at h
    cases h
  | ok n =>
    obtain ⟨v, hv⟩ := exists_sourceOf_of_not_fileFits indexes hlook hfit
    rw [hv] at h
    cases h

end File

/-! ## All files -/

theorem fits_iff : o.Fits here t ↔ o.Listed ∧
    ∀ (i : Nat) (m : Text), o.mappings[i]? = some m → o.FileFits here t i m := by
  constructor
  · intro h
    refine ⟨h.toListed, fun i m hm => ⟨h.files m (List.mem_of_getElem? hm), fun hne => ?_⟩⟩
    unfold pair at hne ⊢
    cases hp : (Text.splitOn ',' o.namespaces)[i]? with
    | none =>
      rw [hp] at hne
      exact absurd rfl hne
    | some p =>
      rw [hp] at hne
      have hblank : Text.isBlankText p = false :=
        Bool.eq_false_iff.2 fun hblank => hne (Text.trim_eq_nil_iff.2 hblank)
      exact (Text.mem_trim (by decide)).2 (h.colons p (List.mem_of_getElem? hp) hblank)
  · rintro ⟨hlisted, hfiles⟩
    refine ⟨hlisted, fun m hm => ?_, fun p hp hblank => ?_⟩
    · obtain ⟨i, hi⟩ := List.mem_iff_getElem?.1 hm
      exact (hfiles i m hi).file
    · obtain ⟨i, hi⟩ := List.mem_iff_getElem?.1 hp
      have hne : o.namespaces ≠ [] := by
        rintro hnil
        rw [hnil] at hp
        obtain rfl := List.mem_singleton.1 hp
        cases hblank
      -- there is a file for every pair
      have hlt : i < o.mappings.length :=
        Nat.lt_of_lt_of_le (List.getElem?_eq_some_iff.1 hi).1 (hlisted.pairs hne)
      have hpair : o.pair i = Text.trim p := by
        unfold pair
        rw [hi]
        rfl
      have hcolon := (hfiles i _ (List.getElem?_eq_getElem hlt)).colon
      rw [hpair] at hcolon
      refine (Text.mem_trim (by decide)).1 (hcolon fun hnil => ?_)
      rw [Text.trim_eq_nil_iff, hblank] at hnil
      cases hnil

theorem Stumbles.not_fits (h : o.Stumbles here t) : ¬ o.Fits here t := by
  intro hfits
  obtain ⟨i, m, hm, ⟨f, hf⟩, -⟩ := h.tooLong
  obtain ⟨b, hb⟩ := hfits.files m (List.mem_of_getElem? hm)
  rw [hf] at hb
  cases hb

/-- The sources are those that the options ask for, one for each file in order. -/
def AreAsked (o : MappingOptions) (ss : List MappingSource) : Prop :=
  ss.length = o.mappings.length ∧ ∀ (i : Nat) (m : Text) (s : MappingSource),
    o.mappings[i]? = some m → ss[i]? = some s → o.Asks i m s

theorem sourcesFrom_eq_mapM (pairs : List Text) (indexes : List Int) (i : Nat) (ms : List Text) :
    sourcesFrom here t pairs indexes i ms =
      (ms.zipIdx i).mapM fun p => sourceOf here t pairs indexes p.2 p.1 := by
  induction ms generalizing i with
  | nil => rfl
  | cons m ms ih =>
    rw [sourcesFrom, List.zipIdx_cons, List.mapM_cons, ih]

section Files

variable {indexes : List Int}

theorem getElem?_zipIdx {i j : Nat} {m : Text} :
    o.mappings.zipIdx[i]? = some (m, j) ↔ o.mappings[i]? = some m ∧ i = j := by
  rw [List.getElem?_zipIdx, Nat.zero_add, Option.map_eq_some_iff]
  constructor
  · rintro ⟨m', hm, h⟩
    cases h
    exact ⟨hm, rfl⟩
  · rintro ⟨hm, rfl⟩
    exact ⟨m, hm, rfl⟩

/-- If all files have a source, they are in order, and the sources are those that are asked for. -/
theorem areAsked_of_mapM (hread : reverseIndexes? o.reverse = some indexes)
    {ss : List MappingSource}
    (h : o.mappings.zipIdx.mapM (fun p =>
      sourceOf here t (namespacePairs o.namespaces) indexes p.2 p.1) = .ok ss) :
    (∀ (i : Nat) (m : Text), o.mappings[i]? = some m → o.FileFits here t i m) ∧ o.AreAsked ss := by
  obtain ⟨hlength, hsources⟩ := List.forall₂_iff_get.1 (mapM_eq_ok_iff.1 h)
  rw [List.length_zipIdx] at hlength
  have hfits : ∀ (i : Nat) (m : Text), o.mappings[i]? = some m → o.FileFits here t i m := by
    intro i m hm
    obtain ⟨s, -, hs⟩ := exists_mapM_of_mem h (List.mem_of_getElem? (getElem?_zipIdx.2 ⟨hm, rfl⟩))
    exact fileFits_of_sourceOf hs
  refine ⟨hfits, hlength.symm, fun i m s hm hs => ?_⟩
  obtain ⟨s', hs', hasks⟩ := (hfits i m hm).exists_sourceOf hread
  obtain ⟨hi, rfl⟩ := List.getElem?_eq_some_iff.1 hs
  obtain ⟨hi', hm'⟩ := List.getElem?_eq_some_iff.1 (getElem?_zipIdx.2 ⟨hm, rfl⟩)
  have hsource := hsources i hi' hi
  rw [List.get_eq_getElem, hm', hs', List.get_eq_getElem] at hsource
  rwa [← Except.ok.inj hsource]

/-- If a file has no source, the first such file decides what is said. -/
theorem outcome_of_mapM (hread : reverseIndexes? o.reverse = some indexes) (hlisted : o.Listed)
    {f : Fault}
    (h : o.mappings.zipIdx.mapM (fun p =>
      sourceOf here t (namespacePairs o.namespaces) indexes p.2 p.1) = .error f) :
    (¬ o.Fits here t ∧ ¬ o.Stumbles here t ∧ ∃ v, f = .option v) ∨
      (o.Stumbles here t ∧ f = .path .nameTooLong) := by
  obtain ⟨i, ⟨m, j⟩, hmj, hfail, hfront⟩ := mapM_eq_error_iff.1 h
  obtain ⟨hm, rfl⟩ := getElem?_zipIdx.1 hmj
  have hearlier : ∀ (j : Nat) (m' : Text), j < i → o.mappings[j]? = some m' →
      o.FileFits here t j m' := by
    intro j m' hj hm'
    obtain ⟨s, hs⟩ := hfront j (m', j) hj (getElem?_zipIdx.2 ⟨hm', rfl⟩)
    exact fileFits_of_sourceOf hs
  have hunfit : ¬ o.FileFits here t i m := by
    intro hfit
    obtain ⟨s, hs, -⟩ := hfit.exists_sourceOf hread
    rw [hs] at hfail
    cases hfail
  cases hlook : t.look (here.join (Path.ofText m)) with
  | error e =>
    rw [sourceOf_of_look_eq_error hlook] at hfail
    exact .inr ⟨⟨hlisted, i, m, hm, ⟨e, hlook⟩, hearlier⟩, (Except.error.inj hfail).symm⟩
  | ok n =>
    obtain ⟨v, hv⟩ := exists_sourceOf_of_not_fileFits indexes hlook hunfit
    rw [hv] at hfail
    refine .inl ⟨fun hfits => hunfit ((fits_iff.1 hfits).2 i m hm), fun hstumbles => ?_,
      v, (Except.error.inj hfail).symm⟩
    -- the first file without a source is the one that is stumbled over
    obtain ⟨k, m', hm', ⟨e, he⟩, hfits⟩ := hstumbles.tooLong
    rcases Nat.lt_trichotomy i k with hlt | rfl | hlt
    · exact hunfit (hfits i m hlt hm)
    · rw [hm] at hm'
      cases hm'
      rw [hlook] at he
      cases he
    · obtain ⟨b, hb⟩ := (hearlier k m' hlt hm').file
      rw [he] at hb
      cases hb

end Files

theorem sources_cases (here : Path) (t : FileTree) (o : MappingOptions) :
    (o.Fits here t ∧ ∃ ss, sources here t o = .ok ss ∧ o.AreAsked ss) ∨
    (¬ o.Fits here t ∧ ¬ o.Stumbles here t ∧ ∃ v, sources here t o = .error (.option v)) ∨
    (o.Stumbles here t ∧ sources here t o = .error (.path .nameTooLong)) := by
  by_cases hlisted : o.Listed
  · obtain ⟨indexes, hread, hsources⟩ := hlisted.sources_eq here t
    rw [hsources, sourcesFrom_eq_mapM]
    cases hfiles : o.mappings.zipIdx.mapM fun p =>
        sourceOf here t (namespacePairs o.namespaces) indexes p.2 p.1 with
    | ok ss =>
      obtain ⟨hfits, hasked⟩ := areAsked_of_mapM hread hfiles
      exact .inl ⟨fits_iff.2 ⟨hlisted, hfits⟩, ss, rfl, hasked⟩
    | error f =>
      rcases outcome_of_mapM hread hlisted hfiles with ⟨hfits, hstumbles, v, rfl⟩ | ⟨h, rfl⟩
      · exact .inr (.inl ⟨hfits, hstumbles, v, rfl⟩)
      · exact .inr (.inr ⟨h, rfl⟩)
  · exact .inr (.inl ⟨fun h => hlisted h.toListed, fun h => hlisted h.toListed,
      exists_sources_of_not_listed hlisted⟩)

end MappingOptions

/-- **A request for sources ends in one of three ways.** It is answered exactly when the options fit
the mapping files, and then with the sources that are asked for. Otherwise a fault of the options is
told, unless the first file that is not in order has a path that cannot be looked for. -/
theorem sources_outcome (here : Path) (t : FileTree) (o : MappingOptions) :
    ((∃ ss, sources here t o = .ok ss) ↔ o.Fits here t) ∧
    (∀ ss, sources here t o = .ok ss → o.AreAsked ss) ∧
    ((∃ v, sources here t o = .error (.option v)) ↔ ¬ o.Fits here t ∧ ¬ o.Stumbles here t) ∧
    (sources here t o = .error (.path .nameTooLong) ↔ o.Stumbles here t) := by
  rcases MappingOptions.sources_cases here t o with
    ⟨hfits, ss, h, hasked⟩ | ⟨hfits, hstumbles, v, h⟩ | ⟨hstumbles, h⟩
  · have hstumbles : ¬ o.Stumbles here t := fun hs => hs.not_fits hfits
    rw [h]
    refine ⟨iff_of_true ⟨ss, rfl⟩ hfits, fun ss' h' => Except.ok.inj h' ▸ hasked,
      iff_of_false (fun ⟨_, h⟩ => by cases h) fun h => h.1 hfits,
      iff_of_false (fun h => by cases h) hstumbles⟩
  · rw [h]
    exact ⟨iff_of_false (fun ⟨_, h⟩ => by cases h) hfits, fun _ h => (by cases h),
      iff_of_true ⟨v, rfl⟩ ⟨hfits, hstumbles⟩, iff_of_false (fun h => by cases h) hstumbles⟩
  · rw [h]
    exact ⟨iff_of_false (fun ⟨_, h⟩ => by cases h) hstumbles.not_fits, fun _ h => (by cases h),
      iff_of_false (fun ⟨_, h⟩ => by cases h) fun h => h.2 hstumbles, iff_of_true rfl hstumbles⟩

def twoFiles : FileTree := (FileTree.empty.addFile ["a".toList] []).addFile ["b".toList] []

/-- Options for two files, of which only the first has a pair and only the second is reversed. -/
def pairedOptions : MappingOptions :=
  ⟨["a".toList, "b".toList], " :n , ".toList, " ,+1, 1".toList⟩

theorem sources_outcome_pairedOptions :
    sources ⟨['/'], []⟩ twoFiles pairedOptions =
      .ok [⟨⟨[], ["a".toList]⟩, none, some "n".toList, false⟩,
        ⟨⟨[], ["b".toList]⟩, none, none, true⟩] ∧
    pairedOptions.Fits ⟨['/'], []⟩ twoFiles := by
  have h : sources ⟨['/'], []⟩ twoFiles pairedOptions =
      .ok [⟨⟨[], ["a".toList]⟩, none, some "n".toList, false⟩,
        ⟨⟨[], ["b".toList]⟩, none, none, true⟩] := by
    decide +kernel
  exact ⟨h, (sources_outcome _ _ _).1.1 ⟨_, h⟩⟩

/-- Options for a file whose name is longer than names can be. -/
def overlongOptions : MappingOptions := ⟨[List.replicate 256 'a'], [], []⟩

/-- Not every file that is not there is a fault of the options. -/
theorem sources_overlong : ¬ overlongOptions.Fits ⟨['/'], []⟩ .empty ∧
    ¬ ∃ v, sources ⟨['/'], []⟩ .empty overlongOptions = .error (.option v) := by
  have hfault : Ends (fun _ => False) (fun f => f = .path .nameTooLong)
      (sources ⟨['/'], []⟩ .empty overlongOptions) := by
    decide +kernel
  obtain ⟨_, _, hnone⟩ | ⟨f, h, rfl⟩ := hfault.ok_or_error
  · exact hnone.elim
  · rcases MappingOptions.sources_cases ⟨['/'], []⟩ .empty overlongOptions with
      ⟨_, ss, hss, _⟩ | ⟨_, _, v, hv⟩ | ⟨hstumbles, _⟩
    · rw [h] at hss
      cases hss
    · rw [h] at hv
      cases hv
    · refine ⟨hstumbles.not_fits, ?_⟩
      rw [h]
      rintro ⟨v, hv⟩
      cases hv

end CommandLine

end Renaming
