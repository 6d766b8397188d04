import Renaming.Proofs.OrderedMap
import Renaming.Proofs.Symbol.Nesting
import Renaming.Proofs.Table.Filling
import Renaming.Proofs.Table.Package

/-!
# `Proofs/Table/Priority` — which rename of a class wins

`mapClass` asks the exclusions, then the classes and then the packages, and the last two by searches
of their own: from the class outward, and through the packages for the longest one. `Answers` gives
its answer without any search. It names the exclusion, the class or the package that decides, and
each of them only where none of those before it does:

> an excluded class keeps its name; otherwise the longest enclosing class with a rename decides, if
> it changes the name; otherwise the longest package that holds the class; otherwise nothing does.

An enclosing class that is renamed to itself changes no name, and yet is the longest: it hides the
classes around it and leaves the class to the packages.

`Answers` speaks of the keys of a table and of what stands under them, and not of their order. So
tables with the same renames and exclusions (`Alike`) make the same names, and the order in which
they were added (`Reordered`) has no say.
-/

set_option autoImplicit false

namespace Renaming

/-- Of the texts with a property, a longest one. -/
structure IsLongest (p : Text → Prop) (a : Text) : Prop where
  holds : p a
  longest : ∀ b, p b → b.length ≤ a.length

namespace Table

/-! ## What decides a name -/

/-- An excluded prefix begins the name. -/
def Excludes (t : Table) (name : Text) : Prop := ∃ p ∈ t.excluded, p <+: name

/-- The longest enclosing class with a rename gives the answer, which is another name. -/
def DecidedByClass (t : Table) (name answer : Text) : Prop :=
  ∃ outer mapped rest, IsLongest (fun o => Encloses o name ∧ o ∈ t.classes.keys) outer ∧
    t.classes.get? outer = some mapped ∧ name = outer ++ rest ∧ answer = mapped ++ rest ∧
      answer ≠ name

/-- A package gives the answer: the root to a name without a slash, and to any other one the longest
package that begins it. -/
inductive DecidedByPackage (t : Table) (name : Text) : Text → Prop
  | root {target : Text} : '/' ∉ name → t.packages.get? Package.root = some target →
      DecidedByPackage t name (placeIn target name)
  | listed {p target rest : Text} : '/' ∈ name →
      IsLongest (fun p => p ∈ t.packages.keys ∧ p ≠ Package.root ∧ p <+: name) p →
      t.packages.get? p = some target → name = p ++ rest →
        DecidedByPackage t name (placeIn target rest)

/-- The new name of a class, by what decides it. -/
inductive Answers (t : Table) (name : Text) : Text → Prop
  | excluded : t.Excludes name → Answers t name name
  | ofClass {answer : Text} : ¬ t.Excludes name → t.DecidedByClass name answer →
      Answers t name answer
  | ofPackage {answer : Text} : ¬ t.Excludes name → (∀ a, ¬ t.DecidedByClass name a) →
      t.DecidedByPackage name answer → Answers t name answer
  | unchanged : ¬ t.Excludes name → (∀ a, ¬ t.DecidedByClass name a) →
      (∀ a, ¬ t.DecidedByPackage name a) → Answers t name name

variable {t t' : Table} {name answer : Text}

theorem isExcluded_iff : t.isExcluded name = true ↔ t.Excludes name := by
  rw [isExcluded, List.any_eq_true]
  simp only [startsWith_iff, Excludes]

theorem isNearest_iff {outer mapped rest : Text} :
    IsNearest t.classes.get? name outer mapped rest ↔
      IsLongest (fun o => Encloses o name ∧ o ∈ t.classes.keys) outer ∧
        t.classes.get? outer = some mapped ∧ name = outer ++ rest := by
  constructor
  · intro h
    refine ⟨⟨⟨h.encloses, ?_⟩, ?_⟩, h.own, h.split⟩
    · rw [OrderedMap.mem_keys_iff, h.own]
      rfl
    · intro o ho
      by_contra hlt
      have hnone := h.nearest o ho.1 (by omega)
      exact OrderedMap.get?_eq_none_iff.1 hnone ho.2
  · rintro ⟨hlongest, hown, hsplit⟩
    refine ⟨hsplit, hlongest.holds.1, hown, ?_⟩
    intro o ho hlt
    rw [OrderedMap.get?_eq_none_iff]
    intro hmem
    have hle := hlongest.longest o ⟨ho, hmem⟩
    omega

/-- The classes decide a name just when the search outward changes it. -/
theorem decidedByClass_iff :
    t.DecidedByClass name answer ↔ t.mapNested name = answer ∧ answer ≠ name := by
  constructor
  · rintro ⟨outer, mapped, rest, hlongest, hown, hsplit, hanswer, hne⟩
    refine ⟨?_, hne⟩
    rw [mapNested, resolveNested_of_isNearest (isNearest_iff.2 ⟨hlongest, hown, hsplit⟩), hanswer]
  · rintro ⟨hmap, hne⟩
    rcases exists_isNearest t.classes.get? name with hnone | ⟨outer, mapped, rest, h⟩
    · rw [mapNested, resolveNested_of_forall_none hnone] at hmap
      exact absurd hmap.symm hne
    · rw [mapNested, resolveNested_of_isNearest h] at hmap
      obtain ⟨hlongest, hown, hsplit⟩ := isNearest_iff.1 h
      exact ⟨outer, mapped, rest, hlongest, hown, hsplit, hmap.symm, hne⟩

theorem mapNested_of_forall_not (h : ∀ a, ¬ t.DecidedByClass name a) : t.mapNested name = name := by
  by_contra hne
  exact h _ (decidedByClass_iff.2 ⟨rfl, hne⟩)

theorem DecidedByPackage.exists_isMoved (h : t.DecidedByPackage name answer) :
    ∃ p target rest, t.IsMoved name p target rest ∧ answer = placeIn target rest := by
  cases h with
  | @root target hslash hget =>
    refine ⟨Package.root, target, name, ⟨hget, ?_, ?_, ?_⟩, rfl⟩
    · rw [placeIn, if_pos rfl]
    · exact iff_of_false hslash fun h => h rfl
    · exact fun h => absurd rfl h
  | @listed p target rest hslash hlongest hget hsplit =>
    refine ⟨p, target, rest, ⟨hget, ?_, ?_, ?_⟩, rfl⟩
    · rw [placeIn, if_neg hlongest.holds.2.1, hsplit]
    · exact iff_of_true hslash hlongest.holds.2.1
    · exact fun _ p' hmem hroot hbegins => hlongest.longest p' ⟨hmem, hroot, hbegins⟩

theorem IsMoved.decidedByPackage {p target rest : Text} (h : t.IsMoved name p target rest) :
    t.DecidedByPackage name (placeIn target rest) := by
  have hsplit := h.split
  by_cases hroot : p = Package.root
  · subst hroot
    rw [placeIn, if_pos rfl] at hsplit
    rw [← hsplit]
    exact .root (fun hslash => h.root.1 hslash rfl) h.own
  · rw [placeIn, if_neg hroot] at hsplit
    refine .listed (h.root.2 hroot) ⟨⟨h.mem_keys, hroot, rest, hsplit.symm⟩, ?_⟩ h.own hsplit
    exact fun q hq => h.longest hroot q hq.1 hq.2.1 hq.2.2

theorem relocate_of_decidedByPackage (h : t.DecidedByPackage name answer) :
    t.relocate name = answer := by
  obtain ⟨p, target, rest, hmoved, rfl⟩ := h.exists_isMoved
  exact relocate_of_isMoved hmoved

theorem relocate_of_forall_not (h : ∀ a, ¬ t.DecidedByPackage name a) : t.relocate name = name := by
  rcases t.exists_isMoved name with hunmoved | ⟨p, target, rest, hmoved⟩
  · exact relocate_of_isUnmoved hunmoved
  · exact absurd hmoved.decidedByPackage (h _)

/-- What decides a name decides what the look-up answers. -/
theorem Answers.eq (h : t.Answers name answer) : t.mapClass name = answer := by
  cases h with
  | excluded hx => rw [mapClass, if_pos (isExcluded_iff.2 hx)]
  | ofClass hx hc =>
    obtain ⟨hmap, hne⟩ := decidedByClass_iff.1 hc
    rw [mapClass, if_neg (mt isExcluded_iff.1 hx), hmap]
    exact if_neg hne
  | ofPackage hx hc hp =>
    rw [mapClass, if_neg (mt isExcluded_iff.1 hx), mapNested_of_forall_not hc]
    exact (if_pos rfl).trans (relocate_of_decidedByPackage hp)
  | unchanged hx hc hp =>
    rw [mapClass, if_neg (mt isExcluded_iff.1 hx), mapNested_of_forall_not hc]
    exact (if_pos rfl).trans (relocate_of_forall_not hp)

/-- Something always decides. -/
theorem exists_answers (t : Table) (name : Text) : ∃ answer, t.Answers name answer := by
  by_cases hx : t.Excludes name
  · exact ⟨name, .excluded hx⟩
  · by_cases hc : ∃ a, t.DecidedByClass name a
    · obtain ⟨a, ha⟩ := hc
      exact ⟨a, .ofClass hx ha⟩
    · have hc' : ∀ a, ¬ t.DecidedByClass name a := fun a ha => hc ⟨a, ha⟩
      by_cases hp : ∃ a, t.DecidedByPackage name a
      · obtain ⟨a, ha⟩ := hp
        exact ⟨a, .ofPackage hx hc' ha⟩
      · exact ⟨name, .unchanged hx hc' fun a ha => hp ⟨a, ha⟩⟩

theorem mapClass_eq_iff : t.mapClass name = answer ↔ t.Answers name answer := by
  constructor
  · rintro rfl
    obtain ⟨answer, h⟩ := t.exists_answers name
    rw [h.eq]
    exact h
  · exact Answers.eq

/-! ## Tables with the same renames -/

/-- The tables rename the same classes and packages and exclude the same prefixes, in any order. -/
structure Alike (t t' : Table) : Prop where
  classes : ∀ source, t.classes.get? source = t'.classes.get? source
  packages : ∀ source, t.packages.get? source = t'.packages.get? source
  excluded : ∀ p, p ∈ t.excluded ↔ p ∈ t'.excluded

namespace Alike

theorem symm (h : Alike t t') : Alike t' t where
  classes := fun source => (h.classes source).symm
  packages := fun source => (h.packages source).symm
  excluded := fun p => (h.excluded p).symm

theorem mem_classes (h : Alike t t') {o : Text} : o ∈ t.classes.keys ↔ o ∈ t'.classes.keys := by
  rw [OrderedMap.mem_keys_iff, OrderedMap.mem_keys_iff, h.classes]

theorem mem_packages (h : Alike t t') {p : Text} : p ∈ t.packages.keys ↔ p ∈ t'.packages.keys := by
  rw [OrderedMap.mem_keys_iff, OrderedMap.mem_keys_iff, h.packages]

theorem excludes (h : Alike t t') (hx : t.Excludes name) : t'.Excludes name := by
  obtain ⟨p, hmem, hbegins⟩ := hx
  exact ⟨p, (h.excluded p).1 hmem, hbegins⟩

theorem decidedByClass (h : Alike t t') (hc : t.DecidedByClass name answer) :
    t'.DecidedByClass name answer := by
  simpa only [DecidedByClass, h.mem_classes, h.classes] using hc

theorem decidedByPackage (h : Alike t t') (hp : t.DecidedByPackage name answer) :
    t'.DecidedByPackage name answer := by
  cases hp with
  | root hslash hget => exact .root hslash (h.packages _ ▸ hget)
  | listed hslash hlongest hget hsplit =>
    simp only [h.mem_packages] at hlongest
    exact .listed hslash hlongest (h.packages _ ▸ hget) hsplit

/-- What decides in one of the tables is in the other as well, and nothing that comes before it. -/
theorem answers (h : Alike t t') (ha : t.Answers name answer) : t'.Answers name answer := by
  have hexcludes : ¬ t.Excludes name → ¬ t'.Excludes name := mt h.symm.excludes
  have hclass : (∀ a, ¬ t.DecidedByClass name a) → ∀ a, ¬ t'.DecidedByClass name a :=
    fun hc a => mt h.symm.decidedByClass (hc a)
  cases ha with
  | excluded hx => exact .excluded (h.excludes hx)
  | ofClass hx hc => exact .ofClass (hexcludes hx) (h.decidedByClass hc)
  | ofPackage hx hc hp => exact .ofPackage (hexcludes hx) (hclass hc) (h.decidedByPackage hp)
  | unchanged hx hc hp =>
    exact .unchanged (hexcludes hx) (hclass hc) fun a => mt h.symm.decidedByPackage (hp a)

theorem mapClass_eq (h : Alike t t') (name : Text) : t.mapClass name = t'.mapClass name :=
  mapClass_eq_iff.2 (h.symm.answers (mapClass_eq_iff.1 rfl))

end Alike

/-! ## The order in which a table is filled -/

/-- Something added to a table that has a say in the names of classes. -/
inductive Addition where
  | package (source target : Text)
  | ofClass (source target : Text) (comment : Datum)
  | exclusion (package : Text)

namespace Addition

/-- The pair that goes to the classes. -/
def classRename? : Addition → Option (Text × Text)
  | ofClass source target _ => some (source, target)
  | _ => none

/-- The pair that goes to the packages. -/
def packageRename? : Addition → Option (Text × Text)
  | package source target => some (Package.canonical source, Package.canonical target)
  | _ => none

/-- The prefix that goes to the exclusions. -/
def excludedPrefix? : Addition → Option Text
  | exclusion name =>
    if Package.canonical name = Package.root then none else some (Package.canonical name)
  | _ => none

end Addition

def add (t : Table) : Addition → Table
  | .package source target => t.addPackage source target
  | .ofClass source target comment => t.addClass source target comment
  | .exclusion package => t.exclude package

/-- The table with several things added one after the other. -/
def addAll (t : Table) (as : List Addition) : Table := as.foldl add t

theorem exclude_keeps {β : Type} (f : Table → β)
    (hf : ∀ t prefixes, f (excludePrefixes t prefixes) = f t) (t : Table) (package : Text) :
    f (t.exclude package) = f t := by
  unfold exclude
  dsimp only
  split
  · rfl
  · exact hf t _

theorem classes_addAll (t : Table) (as : List Addition) :
    (t.addAll as).classes = t.classes.insertAll (as.filterMap Addition.classRename?) := by
  refine foldl_insertOne classes Addition.classRename? ?_ t
  intro r a _
  cases a with
  | package => rfl
  | ofClass => rfl
  | exclusion package => exact exclude_keeps classes (fun _ _ => rfl) r package

theorem packages_addAll (t : Table) (as : List Addition) :
    (t.addAll as).packages = t.packages.insertAll (as.filterMap Addition.packageRename?) := by
  refine foldl_insertOne packages Addition.packageRename? ?_ t
  intro r a _
  cases a with
  | package => rfl
  | ofClass => rfl
  | exclusion package => exact exclude_keeps packages (fun _ _ => rfl) r package

theorem mem_excluded_add {a : Addition} {p : Text} :
    p ∈ (t.add a).excluded ↔ p ∈ t.excluded ∨ a.excludedPrefix? = some p := by
  cases a with
  | package => simp [add, addPackage, Addition.excludedPrefix?]
  | ofClass => simp [add, addClass, addEntry, Addition.excludedPrefix?]
  | exclusion package =>
    rw [add, exclude, Addition.excludedPrefix?]
    by_cases hroot : Package.canonical package = Package.root
    · simp [hroot]
    · by_cases hmem : Package.canonical package ∈ t.excluded
      · simp only [if_neg hroot, excludePrefixes, List.foldl_cons, List.foldl_nil, if_pos hmem,
          Option.some.injEq]
        constructor
        · exact .inl
        · rintro (hp | rfl)
          · exact hp
          · exact hmem
      · simp [hroot, excludePrefixes, hmem, eq_comm]

theorem mem_excluded_addAll {as : List Addition} {p : Text} :
    p ∈ (t.addAll as).excluded ↔ p ∈ t.excluded ∨ ∃ a ∈ as, a.excludedPrefix? = some p := by
  induction as generalizing t with
  | nil => simp [addAll]
  | cons a as ih =>
    have hstep : t.addAll (a :: as) = (t.add a).addAll as := rfl
    rw [hstep, ih, mem_excluded_add, or_assoc]
    simp only [List.mem_cons, exists_eq_or_imp]

/-- The same things are added in another order. A second target for a class or a package takes the
place of the first, so those of one class, and of one package, keep their order. -/
structure Reordered (as bs : List Addition) : Prop where
  perm : as.Perm bs
  classes : ∀ source, (as.filterMap Addition.classRename?).filter (·.1 = source) =
    (bs.filterMap Addition.classRename?).filter (·.1 = source)
  packages : ∀ source, (as.filterMap Addition.packageRename?).filter (·.1 = source) =
    (bs.filterMap Addition.packageRename?).filter (·.1 = source)

/-- Pairs with one key that are all the same have no order among themselves. -/
theorem filter_eq_of_functional {l l' : List (Text × Text)} (h : l.Perm l')
    (hl : OrderedMap.Functional l) (k : Text) : l.filter (·.1 = k) = l'.filter (·.1 = k) := by
  have hperm : (l.filter (·.1 = k)).Perm (l'.filter (·.1 = k)) := h.filter _
  cases hcase : l.filter (·.1 = k) with
  | nil =>
    rw [hcase] at hperm
    exact (List.nil_perm.1 hperm).symm
  | cons p r =>
    have hp : p ∈ l.filter (·.1 = k) := by simp [hcase]
    have hsame : ∀ q ∈ l.filter (·.1 = k), q = p := by
      intro q hq
      rw [List.mem_filter, decide_eq_true_eq] at hp hq
      have hkey : q.1 = p.1 := hq.2.trans hp.2.symm
      exact Prod.ext hkey (hl q hq.1 p hp.1 hkey)
    have hreplicate := List.eq_replicate_of_mem hsame
    rw [hreplicate] at hperm
    rw [← hcase, hreplicate]
    exact List.replicate_perm.1 hperm

/-- Where no class and no package is added with two targets, every order will do. -/
theorem Reordered.of_functional {as bs : List Addition} (h : as.Perm bs)
    (hclasses : OrderedMap.Functional (as.filterMap Addition.classRename?))
    (hpackages : OrderedMap.Functional (as.filterMap Addition.packageRename?)) :
    Reordered as bs where
  perm := h
  classes := filter_eq_of_functional (h.filterMap _) hclasses
  packages := filter_eq_of_functional (h.filterMap _) hpackages

theorem Reordered.alike {as bs : List Addition} (h : Reordered as bs) (t : Table) :
    Alike (t.addAll as) (t.addAll bs) where
  classes := by
    intro source
    rw [classes_addAll, classes_addAll, OrderedMap.get?_insertAll, OrderedMap.get?_insertAll,
      ← OrderedMap.get?_ofList_filter, h.classes, OrderedMap.get?_ofList_filter]
  packages := by
    intro source
    rw [packages_addAll, packages_addAll, OrderedMap.get?_insertAll, OrderedMap.get?_insertAll,
      ← OrderedMap.get?_ofList_filter, h.packages, OrderedMap.get?_ofList_filter]
  excluded := by
    intro p
    rw [mem_excluded_addAll, mem_excluded_addAll]
    simp only [h.perm.mem_iff]

/-! ## The priority -/

/-- **The exclusions decide before the classes and the classes before the packages, each by the
longest of them that applies, and the order in which they were added decides nothing.** -/
theorem mapClass_priority (t : Table) (name : Text) :
    (∀ answer, t.mapClass name = answer ↔ t.Answers name answer) ∧
      (∀ t', Alike t t' → t'.mapClass name = t.mapClass name) ∧
        ∀ as bs, Reordered as bs → (t.addAll as).mapClass name = (t.addAll bs).mapClass name := by
  refine ⟨fun _ => mapClass_eq_iff, ?_, ?_⟩
  · intro t' h
    exact (h.mapClass_eq name).symm
  · intro as bs h
    exact (h.alike t).mapClass_eq name

/-- A class that is renamed to itself hides the one around it, and its package moves the classes
within, whether the renames were added in one order or in the other. -/
theorem mapClass_priority_hidden :
    let as : List Addition := [.ofClass "a/B".toList "x/Y".toList .null,
      .ofClass "a/B$C".toList "a/B$C".toList .null, .package "a".toList "p".toList,
      .package ".".toList "r".toList, .exclusion "a.k".toList]
    let reversed := empty.addAll as.reverse
    (empty.addAll as).mapClass "a/B$C$D".toList = "p/B$C$D".toList ∧
      reversed.mapClass "a/B$C$D".toList = "p/B$C$D".toList ∧
        (reversed.addMethod "a/B/f ()V".toList "g".toList).mapClass "a/B$C$D".toList =
          "p/B$C$D".toList := by
  intro as reversed
  have hanswer : (empty.addAll as).mapClass "a/B$C$D".toList = "p/B$C$D".toList := by
    decide +kernel
  have hreordered : Reordered as.reverse as := .of_functional as.reverse_perm
    (OrderedMap.functional_of_nodup (by decide +kernel))
    (OrderedMap.functional_of_nodup (by decide +kernel))
  have hreversed : reversed.mapClass "a/B$C$D".toList = "p/B$C$D".toList := by
    rw [(mapClass_priority empty _).2.2 _ _ hreordered, hanswer]
  have halike : Alike reversed (reversed.addMethod "a/B/f ()V".toList "g".toList) :=
    ⟨fun _ => rfl, fun _ => rfl, fun _ => Iff.rfl⟩
  refine ⟨hanswer, hreversed, ?_⟩
  rw [(mapClass_priority reversed _).2.1 _ halike, hreversed]

end Table

end Renaming
