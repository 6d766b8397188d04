import Renaming.Proofs.Symbol.Package
import Renaming.Proofs.Table.Continue
import Renaming.Proofs.Table.Reverse

/-!
# `Proofs/Table/Prefix` — package prefixes that are written again

A table brings each package name into its form when the name is put in. Turning a table round and
composing two of them put in names that have been through this before, and nothing tells a name from
a form. So a package keeps its name only if its form lasts (`CanonicalPackages`), which is so of
well-spelled names and of no others (`canonicalPackages_addPackage_iff`).

> The tables whose forms last are those that can be made from well-spelled names, in however many
> steps (`canonicalPackages_iff_wellSpelled`). They are turned round and composed as if no name was
> touched (`form_lasts_iff`).
-/

set_option autoImplicit false

namespace Renaming

namespace Table

variable {t : Table}

/-- **One more package: its names have to be well spelled, and no more is needed.** -/
theorem canonicalPackages_addPackage_iff (h : t.CanonicalPackages) {source target : Text} :
    (t.addPackage source target).CanonicalPackages ↔
      Package.WellSpelled source ∧ Package.WellSpelled target := by
  rw [canonicalPackages_iff, ← Package.canonical_canonical_iff, ← Package.canonical_canonical_iff]
  constructor
  · intro hall
    exact hall _ _ (OrderedMap.get?_insert_self _ _ _)
  · intro hnew p q hget
    rw [addPackage, OrderedMap.get?_insert] at hget
    split at hget
    · rename_i hp
      cases hget
      rw [hp]
      exact hnew
    · exact canonicalPackages_iff.1 h p q hget

/-- Tables that are made from well-spelled package names. -/
inductive WellSpelled : Table → Prop
  | empty : WellSpelled empty
  | package {t : Table} {source target : Text} : WellSpelled t → Package.WellSpelled source →
      Package.WellSpelled target → WellSpelled (t.addPackage source target)
  /-- Classes, members, entries and exclusions may be put in at any time. -/
  | other {t u : Table} : WellSpelled t → u.packages = t.packages → WellSpelled u
  | reverse {t : Table} : WellSpelled t → WellSpelled t.reverse
  | compose {t u : Table} : WellSpelled t → WellSpelled u → WellSpelled (t.compose u)

/-- **Every step keeps forms that last.** -/
theorem WellSpelled.canonicalPackages (h : t.WellSpelled) : t.CanonicalPackages := by
  induction h with
  | empty =>
    intro p hp
    cases hp
  | package _ hsource htarget ih => exact (canonicalPackages_addPackage_iff ih).2 ⟨hsource, htarget⟩
  | other _ hpackages ih =>
    unfold CanonicalPackages
    rw [hpackages]
    exact ih
  | reverse _ ih => exact ih.reverse
  | compose _ _ ihfirst ihsecond => exact ihfirst.compose ihsecond

/-- Forms that last may be put in as names. -/
theorem WellSpelled.foldl_addPackage (h : t.WellSpelled) {l : List (Text × Text)}
    (hl : ∀ p ∈ l, Package.canonical p.1 = p.1 ∧ Package.canonical p.2 = p.2) :
    let u := l.foldl (fun r p => r.addPackage p.1 p.2) t
    u.WellSpelled ∧ u.packages = t.packages.insertAll l := by
  induction l generalizing t with
  | nil => exact ⟨h, rfl⟩
  | cons p l ih =>
    obtain ⟨hp, hl⟩ := List.forall_mem_cons.1 hl
    have hpackages : (t.addPackage p.1 p.2).packages = t.packages.insert p.1 p.2 := by
      rw [addPackage, hp.1, hp.2]
    have hstep := ih (h.package (Package.wellSpelled_of_canonical_eq hp.1)
      (Package.wellSpelled_of_canonical_eq hp.2)) hl
    rw [hpackages] at hstep
    exact hstep

/-- **The tables whose forms last are those made from well-spelled names.** -/
theorem canonicalPackages_iff_wellSpelled : t.CanonicalPackages ↔ t.WellSpelled := by
  constructor
  · intro h
    -- the packages of the table, put into an empty one
    obtain ⟨hfilled, hpackages⟩ := WellSpelled.empty.foldl_addPackage (l := t.packages.toList)
      fun p hp => canonicalPackages_iff.1 h p.1 p.2 (OrderedMap.get?_eq_some_iff.2 hp)
    refine hfilled.other ?_
    rw [hpackages]
    exact (OrderedMap.ofList_toList _).symm
  · exact WellSpelled.canonicalPackages

/-- **A package name has one form.** It is the root or a prefix, unless the name consists of
separators and does not spell the root; it lasts just when the name is well spelled; and exactly the
tables made from well-spelled names hold forms that last, so that turning them round and composing
them changes no prefix. -/
theorem form_lasts_iff (name : Text) (t u : Table) :
    (Package.canonical name = Package.root ∨ Package.IsPrefix (Package.canonical name) ↔
      Text.trim name ∈ Package.rootSpellings ∨ Package.start? name ≠ none) ∧
    (Package.canonical (Package.canonical name) = Package.canonical name ↔
      Package.WellSpelled name) ∧
    (t.CanonicalPackages ↔ t.WellSpelled) ∧
    (t.WellSpelled → u.WellSpelled →
      t.reverse.packages = .ofList (t.packages.toList.map fun p => (p.2, p.1)) ∧
      ∀ p, (t.compose u).packages.get? p =
        ((t.packages.get? p).map fun q => u.packages.getD q q).or
          (if p ∈ t.packages.values then none else u.packages.get? p)) := by
  refine ⟨Package.canonical_form_iff, Package.canonical_canonical_iff,
    canonicalPackages_iff_wellSpelled, ?_⟩
  intro ht hu
  exact ⟨reverse_packages_of_canonical ht.canonicalPackages,
    get?_compose_packages ht.canonicalPackages hu.canonicalPackages⟩

/-- Dots, outer separators and outer blanks do no harm, on the way there, back and on. -/
theorem form_lasts_iff_dotted :
    let name := "..a.b".toList
    let t := empty.addPackage name " x/ ".toList
    let u := empty.addPackage "x".toList ".".toList
    Package.canonical (Package.canonical name) = Package.canonical name ∧
      t.WellSpelled ∧ u.WellSpelled ∧
      t.reverse.packages = .ofList [("x/".toList, "a/b/".toList)] ∧
      (t.reverse.reverse.compose u).packages.get? "a/b/".toList = some Package.root := by
  intro name t u
  have hname : Package.WellSpelled name := .inr ⟨'a', by decide, by decide⟩
  have ht : t.WellSpelled := .package .empty hname (.inr ⟨'x', by decide, by decide⟩)
  have hu : u.WellSpelled := .package .empty (.inr ⟨'x', by decide, by decide⟩) (.inl (by decide))
  obtain ⟨-, hlasts, -, htables⟩ := form_lasts_iff name t u
  refine ⟨hlasts.2 hname, ht, hu, (htables ht hu).1, ?_⟩
  rw [((form_lasts_iff name t.reverse.reverse u).2.2.2 ht.reverse.reverse hu).2]
  decide +kernel

/-- Two slashes become one, which is no prefix and becomes the root when it is written again. A
blank behind a slash is laid bare and is gone the next time, when the table is turned round or
composed. -/
theorem form_of_separators :
    let slashes := Package.canonical "//".toList
    let t := empty.addPackage "/ a".toList "b".toList
    ¬ (slashes = Package.root ∨ Package.IsPrefix slashes) ∧
      Package.canonical slashes ≠ slashes ∧
      t.packages.toList = [(" a/".toList, "b/".toList)] ∧
      t.reverse.packages.toList = [("b/".toList, "a/".toList)] ∧
      (t.compose empty).packages.toList = [("a/".toList, "b/".toList)] := by
  intro slashes t
  refine ⟨?_, by decide, by decide +kernel, by decide +kernel, by decide +kernel⟩
  rintro (hroot | hprefix)
  · exact absurd hroot (by decide)
  · exact hprefix.first (by decide)

end Table

end Renaming
