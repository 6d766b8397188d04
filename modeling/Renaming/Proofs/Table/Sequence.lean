import Renaming.Proofs.Table.Compose
import Renaming.Proofs.Table.Package

/-!
# `Proofs/Table/Sequence` — a composition against its two steps one after the other

A class can be renamed on three levels: by its own entry, by that of an enclosing class, and by the
package it lies in. A composition carries on each entry and each package of the first table for
itself, by what the second table makes of that entry or that package. Applied one after the other,
the second table sees the whole name the first has made, and may treat it on another level. So the
two agree exactly as far as the second step treats the new name as it treats the entry it comes
from:

* after an entry `a ↦ b` of the first table, when the second treats what lies in `b` as it treats
  `b`, and packages leave alone what is left alone by the classes;
* after a package `p ↦ q`, when no class entry of either step has a say and the second table moves
  what lies in `q` as it moves `q`.

Each condition is needed: `mapClass_compose_ne` has two tables for each of them that disagree where
it fails.
-/

set_option autoImplicit false

namespace Renaming

namespace Table

variable {first second : Table}

/-- The composition renames the class as the two tables do one after the other. -/
def Agree (first second : Table) (name : Text) : Prop :=
  (first.compose second).mapClass name = second.mapClass (first.mapClass name)

instance (first second : Table) (name : Text) : Decidable (Agree first second name) :=
  inferInstanceAs (Decidable (_ = _))

/-- The first table renames the class by the entry `a ↦ b`, which is its own or that of the nearest
enclosing class. -/
structure ByClass (first : Table) (name a b rest : Text) : Prop where
  nearest : IsNearest first.classes.get? name a b rest
  ne : b ≠ a

/-- The first table renames the class by the package entry `p ↦ q`. -/
structure ByPackage (first : Table) (name p q rest : Text) : Prop where
  kept : first.mapNested name = name
  moved : first.IsMoved name p q rest

/-- Neither step renames the class by a class entry, and the composition finds the package `p` of
the class where the first table finds it. -/
structure PackagesAlone (first second : Table) (name p q rest : Text) : Prop where
  canonical : first.CanonicalPackages ∧ second.CanonicalPackages
  /-- An entry of the first table that keeps a name around the class is kept by the second. -/
  kept : ∀ a b r, IsNearest first.classes.get? name a b r → second.mapNested b = b
  unnamed : second.mapNested (placeIn q rest) = placeIn q rest
  /-- No package that only the second table knows is nearer to the class than `p`. -/
  nearest : ∀ p' ∈ second.packages.keys, p' ∉ first.packages.keys → p' ∉ first.packages.values →
    p' ≠ Package.root → p' <+: name → p'.length ≤ p.length

/-! ## One level after the other -/

theorem mapClass_of_excluded_eq_nil {t : Table} (h : t.excluded = []) (name : Text) :
    t.mapClass name = if t.mapNested name = name then t.relocate name else t.mapNested name := by
  have hnot : t.isExcluded name = false := by rw [isExcluded, h]; rfl
  rw [mapClass, hnot]
  rfl

theorem compose_excluded_eq_nil (h : first.excluded = []) (second : Table) :
    (first.compose second).excluded = [] := by
  rw [compose_excluded, h]
  rfl

/-- The entry that decides in the first table decides in the composition. -/
theorem isNearest_compose {name a b rest : Text} (h : IsNearest first.classes.get? name a b rest)
    (second : Table) :
    IsNearest (first.compose second).classes.get? name a (second.mapNested b) rest := by
  refine ⟨h.split, h.encloses, ?_, fun o ho hlt => ?_⟩
  · rw [get?_compose_classes, h.own, Option.map_some]
  · rw [get?_compose_classes, h.nearest o ho hlt, Option.map_none]

theorem mapNested_compose {name a b rest : Text} (h : IsNearest first.classes.get? name a b rest)
    (second : Table) : (first.compose second).mapNested name = second.mapNested b ++ rest :=
  resolveNested_of_isNearest (isNearest_compose h second)

theorem mapNested_compose_of_forall_none {name : Text}
    (h : ∀ o, Encloses o name → first.classes.get? o = none) (second : Table) :
    (first.compose second).mapNested name = name := by
  refine resolveNested_of_forall_none fun o ho => ?_
  rw [get?_compose_classes, h o ho, Option.map_none]

theorem ByClass.mapNested {name a b rest : Text} (h : ByClass first name a b rest) :
    first.mapNested name = b ++ rest ∧ b ++ rest ≠ name := by
  refine ⟨resolveNested_of_isNearest h.nearest, fun e => h.ne ?_⟩
  rw [h.nearest.split] at e
  exact List.append_cancel_right e

/-- A class that the first table renames is renamed by a class entry or by a package. -/
theorem byClass_or_byPackage (h₁ : first.excluded = []) {name : Text}
    (h : first.mapClass name ≠ name) :
    (∃ a b rest, ByClass first name a b rest) ∨ ∃ p q rest, ByPackage first name p q rest := by
  rw [mapClass_of_excluded_eq_nil h₁] at h
  split at h
  · rename_i hkept
    rcases first.exists_isMoved name with hnone | ⟨p, q, rest, hmoved⟩
    · exact absurd (relocate_of_isUnmoved hnone) h
    · exact .inr ⟨p, q, rest, hkept, hmoved⟩
  · rcases exists_isNearest first.classes.get? name with hnone | ⟨a, b, rest, hnear⟩
    · exact absurd (resolveNested_of_forall_none hnone) h
    · refine .inl ⟨a, b, rest, hnear, ?_⟩
      rintro rfl
      exact h ((resolveNested_of_isNearest hnear).trans hnear.split.symm)

/-- After a class entry: the second table treats what lies in `b` as it treats `b`. -/
theorem ByClass.agree_iff (h₁ : first.excluded = []) (h₂ : second.excluded = [])
    {name a b rest : Text} (h : ByClass first name a b rest)
    (hwith : second.mapNested (b ++ rest) = second.mapNested b ++ rest) :
    Agree first second name ↔
      (second.mapNested (b ++ rest) = b ++ rest → second.relocate (b ++ rest) = b ++ rest) ∧
      (second.mapNested (b ++ rest) = name → (first.compose second).relocate name = name) := by
  obtain ⟨hfirst, hne⟩ := h.mapNested
  unfold Agree
  rw [mapClass_of_excluded_eq_nil h₁, hfirst, if_neg hne, mapClass_of_excluded_eq_nil h₂,
    mapClass_of_excluded_eq_nil (compose_excluded_eq_nil h₁ second),
    mapNested_compose h.nearest second, ← hwith]
  by_cases hkept : second.mapNested (b ++ rest) = b ++ rest
  · -- what the second table leaves at `b ++ rest` is not back at `name`
    rw [if_pos hkept, hkept, if_neg hne]
    constructor
    · exact fun e => ⟨fun _ => e.symm, fun e' => absurd e' hne⟩
    · exact fun e => (e.1 rfl).symm
  · rw [if_neg hkept]
    by_cases hback : second.mapNested (b ++ rest) = name
    · rw [if_pos hback, hback]
      exact ⟨fun e => ⟨fun e' => absurd (hback.trans e') hkept, fun _ => e⟩, fun e => e.2 rfl⟩
    · rw [if_neg hback]
      exact ⟨fun _ => ⟨fun e => absurd e hkept, fun e => absurd e hback⟩, fun _ => rfl⟩

/-- The package that moves a class in the first table moves it in the composition. -/
theorem PackagesAlone.isMoved_compose {name p q rest : Text}
    (h : PackagesAlone first second name p q rest) (hmoved : first.IsMoved name p q rest) :
    (first.compose second).IsMoved name p (second.packages.getD q q) rest := by
  have hget := get?_compose_packages h.canonical.1 h.canonical.2
  refine ⟨?_, hmoved.split, hmoved.root, fun hroot p' hp' hroot' hbegins => ?_⟩
  · rw [hget, hmoved.own, Option.map_some, Option.some_or]
  · by_cases hmem : p' ∈ first.packages.keys
    · exact hmoved.longest hroot p' hmem hroot' hbegins
    · rw [OrderedMap.mem_keys_iff, hget, OrderedMap.get?_eq_none_iff.2 hmem, Option.map_none,
        Option.none_or] at hp'
      split at hp'
      · cases hp'
      · rename_i hvalues
        exact h.nearest p' (OrderedMap.mem_keys_iff.2 hp') hmem hvalues hroot' hbegins

/-- After a package entry: the second table moves what lies in `q` as it moves `q`. -/
theorem ByPackage.agree_iff (h₁ : first.excluded = []) (h₂ : second.excluded = [])
    {name p q rest : Text} (h : ByPackage first name p q rest)
    (halone : PackagesAlone first second name p q rest) :
    Agree first second name ↔
      second.relocate (placeIn q rest) = placeIn (second.packages.getD q q) rest := by
  have hcompose : (first.compose second).mapNested name = name := by
    rcases exists_isNearest first.classes.get? name with hnone | ⟨a, b, r, hnear⟩
    · exact mapNested_compose_of_forall_none hnone second
    · have hfirst := h.kept
      rw [mapNested, resolveNested_of_isNearest hnear] at hfirst
      rw [mapNested_compose hnear second, halone.kept a b r hnear, hfirst]
  unfold Agree
  rw [mapClass_of_excluded_eq_nil h₁, if_pos h.kept, relocate_of_isMoved h.moved,
    mapClass_of_excluded_eq_nil h₂, if_pos halone.unnamed,
    mapClass_of_excluded_eq_nil (compose_excluded_eq_nil h₁ second), if_pos hcompose,
    relocate_of_isMoved (halone.isMoved_compose h.moved)]
  exact eq_comm

/-- **Where a composition agrees with its steps.** Whatever the first table renames it renames by a
class entry or by a package. After a class entry `a ↦ b`, if the second table treats what lies in
`b` as it treats `b`, the two agree exactly when packages do not take part: those of the second do
not move a class that its entries leave alone, and those of the composition do not move a class
that is led back to its first name. After a package entry `p ↦ q`, if class entries do not take
part, they agree exactly when the second table moves what lies in `q` as it moves `q`. -/
theorem mapClass_compose (h₁ : first.excluded = []) (h₂ : second.excluded = []) {name : Text}
    (hne : first.mapClass name ≠ name) :
    ((∃ a b rest, ByClass first name a b rest) ∨ ∃ p q rest, ByPackage first name p q rest) ∧
      (∀ a b rest, ByClass first name a b rest →
        second.mapNested (b ++ rest) = second.mapNested b ++ rest →
          (Agree first second name ↔
            (second.mapNested (b ++ rest) = b ++ rest →
              second.relocate (b ++ rest) = b ++ rest) ∧
            (second.mapNested (b ++ rest) = name →
              (first.compose second).relocate name = name))) ∧
      ∀ p q rest, ByPackage first name p q rest → PackagesAlone first second name p q rest →
        (Agree first second name ↔
          second.relocate (placeIn q rest) = placeIn (second.packages.getD q q) rest) :=
  ⟨byClass_or_byPackage h₁ hne, fun _ _ _ h hwith => h.agree_iff h₁ h₂ hwith,
    fun _ _ _ h halone => h.agree_iff h₁ h₂ halone⟩

/-- A class nested in one that both steps rename, and a class in a package that both steps move. -/
theorem mapClass_compose_two :
    let first := (empty.addClass "a/X".toList "b/Y".toList .null).addPackage "p".toList "q".toList
    let second := (empty.addClass "b/Y".toList "c/Z".toList .null).addPackage "q".toList "r".toList
    first.excluded = [] ∧ second.excluded = [] ∧
      first.mapClass "a/X$I".toList = "b/Y$I".toList ∧ Agree first second "a/X$I".toList ∧
      first.mapClass "p/s/V".toList = "q/s/V".toList ∧ Agree first second "p/s/V".toList := by
  intro first second
  have hkey : ∀ o : Text, o ≠ "a/X".toList → first.classes.get? o = none := by
    intro o ho
    refine OrderedMap.get?_eq_none_iff.2 fun hmem => ho ?_
    exact List.mem_singleton.1 hmem
  have hclass : ByClass first "a/X$I".toList "a/X".toList "b/Y".toList "$I".toList := by
    refine ⟨⟨rfl, .inr ⟨by decide, "I".toList, rfl⟩, by decide, fun o _ hlt => ?_⟩, by decide⟩
    refine hkey o ?_
    rintro rfl
    exact Nat.lt_irrefl _ hlt
  have hpackage : ByPackage first "p/s/V".toList "p/".toList "q/".toList "s/V".toList := by
    refine ⟨by decide +kernel, by decide, by decide, by decide, fun _ p' hp' _ _ => ?_⟩
    obtain rfl := List.mem_singleton.1 hp'
    exact Nat.le_refl _
  have halone : PackagesAlone first second "p/s/V".toList "p/".toList "q/".toList "s/V".toList := by
    refine ⟨by unfold CanonicalPackages; decide +kernel, fun a b r h => ?_, by decide +kernel,
      fun p' hp' _ hv => ?_⟩
    · -- the only class entry is about another class
      have hne : first.classes.get? a ≠ none := by rw [h.own]; simp
      have ha : a = "a/X".toList := by
        by_contra ha
        exact hne (hkey a ha)
      have := h.split
      rw [ha] at this
      cases this
    · obtain rfl := List.mem_singleton.1 hp'
      exact absurd (by decide) hv
  have h₁ : first.mapClass "a/X$I".toList = "b/Y$I".toList := by decide +kernel
  have h₂ : first.mapClass "p/s/V".toList = "q/s/V".toList := by decide +kernel
  have hnested := @mapClass_compose first second rfl rfl "a/X$I".toList (by rw [h₁]; decide)
  have hmoved := @mapClass_compose first second rfl rfl "p/s/V".toList (by rw [h₂]; decide)
  refine ⟨rfl, rfl, h₁, ?_, h₂, ?_⟩
  · exact (hnested.2.1 _ _ _ hclass (by decide +kernel)).2 ⟨by decide +kernel, by decide +kernel⟩
  · exact (hmoved.2.2 _ _ _ hpackage halone).2 (by decide +kernel)

/-- Each pair of tables breaks one condition and does not agree on the class. In order: a package of
the second table moves what its entries leave alone; the second leads back to the first name, which
a package of the first moves; a nested class is listed by the second alone; an entry of the first
that keeps the name is changed by the second; the second has an entry for the moved class; a package
of the second alone is nearer to the class; the second has a package inside the new one; a package
is not in the one form. -/
theorem mapClass_compose_ne :
    let table (packages classes : List (String × String)) : Table :=
      packages.foldl (fun t p => t.addPackage p.1.toList p.2.toList)
        (classes.foldl (fun t c => t.addClass c.1.toList c.2.toList .null) empty)
    ∀ x ∈ [(table [] [("a/X", "b/Y")], table [("b", "c")] [], "a/X"),
        (table [("a", "p")] [("a/X", "b/Y")], table [] [("b/Y", "a/X")], "a/X"),
        (table [] [("a/X", "b/Y")], table [] [("b/Y", "c/Z"), ("b/Y$I", "c/W")], "a/X$I"),
        (table [("a", "b")] [("a/X", "a/X")], table [] [("a/X", "c/Z")], "a/X"),
        (table [("a", "b")] [], table [] [("b/X", "c/Z")], "a/X"),
        (table [("a", "b")] [], table [("a/x", "z")] [], "a/x/Y"),
        (table [("a", "b")] [], table [("b/x", "c")] [], "a/x/Y"),
        (table [("//", "b")] [], table [] [], "/X")],
      x.1.excluded = [] ∧ x.2.1.excluded = [] ∧ x.1.mapClass x.2.2.toList ≠ x.2.2.toList ∧
        ¬ Agree x.1 x.2.1 x.2.2.toList := by
  decide +kernel

end Table

end Renaming
