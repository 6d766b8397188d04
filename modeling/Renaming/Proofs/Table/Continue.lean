import Renaming.Proofs.Table.Sequence

/-!
# `Proofs/Table/Continue` — where a third table goes on

Three tables can be composed from the left, so that the third is asked about what the first two make
of a symbol, or from the right, so that it is asked, ahead of time, about what the second makes of
its own symbols. From the right the third table is asked nothing about a class that the second has
no entry around. So the two agree on a class of the first table

> exactly when the third table goes on where the second stops (`Continues`).

Packages have a rule of their own (`PackagesContinue`), and a say only where a class is led back to
its first name. Fields and methods are left to `Associate`.
-/

set_option autoImplicit false

namespace Renaming

namespace Table

variable {first second third : Table}

def fromLeft (first second third : Table) : Table := (first.compose second).compose third

def fromRight (first second third : Table) : Table := first.compose (second.compose third)

/-! ## Classes -/

/-- The third table goes on where the second stops: what lies in a class that the second renames it
treats as it treats that class, and what the second leaves alone it leaves alone. -/
structure Continues (second third : Table) (name : Text) : Prop where
  nested : ∀ a b rest, IsNearest second.classes.get? name a b rest →
    third.mapNested (b ++ rest) = third.mapNested b ++ rest
  kept : (∀ outer, Encloses outer name → second.classes.get? outer = none) →
    third.mapNested name = name

theorem mapNested_compose_iff {name : Text} :
    (second.compose third).mapNested name = third.mapNested (second.mapNested name) ↔
      Continues second third name := by
  constructor
  · intro h
    constructor
    · intro a b rest hnear
      rw [mapNested_compose hnear third] at h
      rw [h]
      exact congrArg third.mapNested (resolveNested_of_isNearest hnear).symm
    · intro hnone
      rw [mapNested_compose_of_forall_none hnone third] at h
      have hsecond : second.mapNested name = name := resolveNested_of_forall_none hnone
      rw [hsecond] at h
      exact h.symm
  · intro h
    rcases exists_isNearest second.classes.get? name with hnone | ⟨a, b, rest, hnear⟩
    · have hsecond : second.mapNested name = name := resolveNested_of_forall_none hnone
      rw [mapNested_compose_of_forall_none hnone third, hsecond, h.kept hnone]
    · have hsecond : second.mapNested name = b ++ rest := resolveNested_of_isNearest hnear
      rw [mapNested_compose hnear third, hsecond, h.nested a b rest hnear]

/-- A class with a rename of its own is moved by packages only when that leads back to it. -/
theorem mapClass_of_get? {t : Table} (hx : t.excluded = []) {name target : Text}
    (h : t.classes.get? name = some target) :
    t.mapClass name = if target = name then t.relocate name else target := by
  have hnested : t.mapNested name = target := resolveNested_of_find h
  rw [mapClass_of_excluded_eq_nil hx, hnested]

theorem mapClass_fromLeft (hx : first.excluded = []) {name mid : Text}
    (h : first.classes.get? name = some mid) :
    (fromLeft first second third).mapClass name =
      if third.mapNested (second.mapNested mid) = name
      then (fromLeft first second third).relocate name
      else third.mapNested (second.mapNested mid) := by
  apply mapClass_of_get?
  · exact compose_excluded_eq_nil (compose_excluded_eq_nil hx second) third
  · unfold fromLeft
    rw [get?_compose_classes, get?_compose_classes, h]
    rfl

theorem mapClass_fromRight (hx : first.excluded = []) {name mid : Text}
    (h : first.classes.get? name = some mid) :
    (fromRight first second third).mapClass name =
      if (second.compose third).mapNested mid = name
      then (fromRight first second third).relocate name
      else (second.compose third).mapNested mid := by
  apply mapClass_of_get?
  · exact compose_excluded_eq_nil hx (second.compose third)
  · unfold fromRight
    rw [get?_compose_classes, h]
    rfl

/-- The two compositions agree on the class. -/
def AgreeOnClass (first second third : Table) (name : Text) : Prop :=
  (fromLeft first second third).mapClass name = (fromRight first second third).mapClass name

instance (first second third : Table) (name : Text) :
    Decidable (AgreeOnClass first second third name) := inferInstanceAs (Decidable (_ = _))

/-- **On a class of the first table the two compositions agree when the third table goes on where
the second stops**, up to the packages of a class that is led back to its first name. Otherwise they
agree only where a package moves such a class to just the name that the other side has. -/
theorem agreeOnClass_iff (hx : first.excluded = []) {name mid : Text}
    (h : first.classes.get? name = some mid) :
    AgreeOnClass first second third name ↔
      (Continues second third mid ∧ (third.mapNested (second.mapNested mid) = name →
        (fromLeft first second third).relocate name =
          (fromRight first second third).relocate name)) ∨
      (¬ Continues second third mid ∧
        ((third.mapNested (second.mapNested mid) = name ∧
          (fromLeft first second third).relocate name = (second.compose third).mapNested mid) ∨
        ((second.compose third).mapNested mid = name ∧
          third.mapNested (second.mapNested mid) =
            (fromRight first second third).relocate name))) := by
  unfold AgreeOnClass
  rw [mapClass_fromLeft hx h, mapClass_fromRight hx h, ← mapNested_compose_iff]
  generalize third.mapNested (second.mapNested mid) = left
  generalize (second.compose third).mapNested mid = right
  by_cases hsame : right = left
  · rw [hsame]
    by_cases hback : left = name <;> simp [hback]
  · -- at most one side is led back
    by_cases hleft : left = name
    · have hright : right ≠ name := fun hright => hsame (hright.trans hleft.symm)
      simp [hleft, hright]
    · by_cases hright : right = name
      · simp [hleft, hright, Ne.symm hleft]
      · simp [hleft, hright, hsame, Ne.symm hsame]

/-! ## Packages -/

theorem relocate_congr {t u : Table} (h : ∀ p, t.packages.get? p = u.packages.get? p)
    (name : Text) : t.relocate name = u.relocate name := by
  have hkeys : ∀ p, p ∈ u.packages.keys → p ∈ t.packages.keys := by
    intro p hp
    rw [OrderedMap.mem_keys_iff] at hp ⊢
    rw [h]
    exact hp
  rcases t.exists_isMoved name with hnone | ⟨p, q, rest, hmoved⟩
  · have hnone' : u.IsUnmoved name :=
      ⟨fun hslash p hp => hnone.listed hslash p (hkeys p hp),
        fun hslash hp => hnone.root hslash (hkeys _ hp)⟩
    rw [relocate_of_isUnmoved hnone, relocate_of_isUnmoved hnone']
  · have hmoved' : u.IsMoved name p q rest :=
      ⟨(h p).symm.trans hmoved.own, hmoved.split, hmoved.root,
        fun hroot p' hp' => hmoved.longest hroot p' (hkeys p' hp')⟩
    rw [relocate_of_isMoved hmoved, relocate_of_isMoved hmoved']

theorem CanonicalPackages.compose (h₁ : first.CanonicalPackages) (h₂ : second.CanonicalPackages) :
    (first.compose second).CanonicalPackages := by
  rw [canonicalPackages_iff]
  intro p q hget
  rw [get?_compose_packages h₁ h₂] at hget
  rw [canonicalPackages_iff] at h₁ h₂
  cases hfirst : first.packages.get? p with
  | some mid =>
    rw [hfirst, Option.map_some, Option.some_or] at hget
    cases hget
    refine ⟨(h₁ p mid hfirst).1, ?_⟩
    unfold OrderedMap.getD
    cases hsecond : second.packages.get? mid with
    | none => exact (h₁ p mid hfirst).2
    | some q => exact (h₂ mid q hsecond).2
  | none =>
    rw [hfirst, Option.map_none, Option.none_or] at hget
    split at hget
    · cases hget
    · exact h₂ p q hget

/-- The third table's packages go on where those of the second stop: a new package of the first that
the second does not move, but moves others to, is not moved; and a package that only the third knows
has not been mentioned before, unless the first two lead to it. -/
structure PackagesContinue (first second third : Table) : Prop where
  kept : ∀ q ∈ first.packages.values, q ∉ second.packages.keys → q ∈ second.packages.values →
    third.packages.getD q q = q
  unmentioned : ∀ p ∈ third.packages.keys, p ∉ first.packages.keys →
    p ∉ (first.compose second).packages.values →
      (p ∈ second.packages.keys → p ∉ first.packages.values) ∧
        (p ∉ second.packages.keys → p ∉ second.packages.values)

section Canonical

variable (h₁ : first.CanonicalPackages) (h₂ : second.CanonicalPackages)
  (h₃ : third.CanonicalPackages)

include h₁ h₂

theorem mem_values_of_notMem_keys {p : Text} (hp : p ∈ first.packages.values)
    (hsecond : p ∉ second.packages.keys) : p ∈ (first.compose second).packages.values := by
  obtain ⟨source, hsource⟩ := OrderedMap.mem_values_iff.1 hp
  apply OrderedMap.mem_values_iff.2
  refine ⟨source, ?_⟩
  rw [get?_compose_packages h₁ h₂, hsource, Option.map_some, Option.some_or, OrderedMap.getD,
    OrderedMap.get?_eq_none_iff.2 hsecond, Option.getD_none]

theorem mem_values_of_mem_compose {p : Text} (hp : p ∈ (first.compose second).packages.values) :
    p ∈ first.packages.values ∨ p ∈ second.packages.values := by
  obtain ⟨source, hsource⟩ := OrderedMap.mem_values_iff.1 hp
  rw [get?_compose_packages h₁ h₂] at hsource
  cases hfirst : first.packages.get? source with
  | some mid =>
    rw [hfirst, Option.map_some, Option.some_or, OrderedMap.getD] at hsource
    cases hsecond : second.packages.get? mid with
    | none =>
      rw [hsecond] at hsource
      cases hsource
      exact .inl (OrderedMap.mem_values_of_get? hfirst)
    | some q =>
      rw [hsecond] at hsource
      cases hsource
      exact .inr (OrderedMap.mem_values_of_get? hsecond)
  | none =>
    rw [hfirst, Option.map_none, Option.none_or] at hsource
    split at hsource
    · cases hsource
    · exact .inr (OrderedMap.mem_values_of_get? hsource)

include h₃

/-- A package of the first table. -/
theorem get?_packages_of_get? {p q : Text} (h : first.packages.get? p = some q) :
    (fromLeft first second third).packages.get? p =
        (fromRight first second third).packages.get? p ↔
      (q ∉ second.packages.keys → q ∈ second.packages.values → third.packages.getD q q = q) := by
  unfold fromLeft fromRight
  rw [get?_compose_packages (h₁.compose h₂) h₃, get?_compose_packages h₁ h₂,
    get?_compose_packages h₁ (h₂.compose h₃), h, Option.map_some, Option.some_or, Option.map_some,
    Option.some_or, Option.map_some, Option.some_or, Option.some.injEq]
  have hright : (second.compose third).packages.getD q q =
      (((second.packages.get? q).map fun q => third.packages.getD q q).or
        (if q ∈ second.packages.values then none else third.packages.get? q)).getD q := by
    rw [OrderedMap.getD, get?_compose_packages h₂ h₃]
  rw [hright]
  cases hsecond : second.packages.get? q with
  | some q' =>
    have hkey : q ∈ second.packages.keys := by
      rw [OrderedMap.mem_keys_iff, hsecond]
      rfl
    have hleft : second.packages.getD q q = q' := by
      rw [OrderedMap.getD, hsecond, Option.getD_some]
    rw [hleft]
    exact iff_of_true rfl fun h => absurd hkey h
  | none =>
    have hkey : q ∉ second.packages.keys := OrderedMap.get?_eq_none_iff.1 hsecond
    have hleft : second.packages.getD q q = q := by rw [OrderedMap.getD, hsecond, Option.getD_none]
    rw [hleft, Option.map_none, Option.none_or]
    split
    · rename_i hvalue
      exact ⟨fun h _ _ => h, fun h => h hkey hvalue⟩
    · rename_i hvalue
      exact iff_of_true rfl fun _ h => absurd h hvalue

/-- A package that the first table does not know. -/
theorem get?_packages_of_get?_eq_none {p : Text} (h : first.packages.get? p = none) :
    (fromLeft first second third).packages.get? p =
        (fromRight first second third).packages.get? p ↔
      (p ∈ third.packages.keys → p ∉ (first.compose second).packages.values →
        (p ∈ second.packages.keys → p ∉ first.packages.values) ∧
          (p ∉ second.packages.keys → p ∉ second.packages.values)) := by
  have hvalues := mem_values_of_mem_compose h₁ h₂ (p := p)
  have hkept := mem_values_of_notMem_keys h₁ h₂ (p := p)
  unfold fromLeft fromRight
  rw [get?_compose_packages (h₁.compose h₂) h₃, get?_compose_packages h₁ h₂,
    get?_compose_packages h₁ (h₂.compose h₃), get?_compose_packages h₂ h₃, h, Option.map_none,
    Option.none_or, Option.map_none, Option.none_or]
  simp only [OrderedMap.mem_keys_iff] at hkept ⊢
  cases hthird : third.packages.get? p with
  | none =>
    -- the third table has nothing to add, and both ask it about what the second makes of `p`
    refine iff_of_true ?_ (fun h => absurd h Bool.false_ne_true)
    by_cases hv : p ∈ first.packages.values
    · simp [hv]
    · simp [hv]
  | some z =>
    cases hsecond : second.packages.get? p with
    | some q =>
      by_cases hv : p ∈ first.packages.values <;>
        by_cases hc : p ∈ (first.compose second).packages.values <;> simp [hv, hc]
    | none =>
      rw [hsecond] at hkept
      by_cases hv : p ∈ first.packages.values
      · have hc := hkept hv (by simp)
        simp [hv, hc]
      · by_cases hc : p ∈ (first.compose second).packages.values
        · have hs := (hvalues hc).resolve_left hv
          simp [hv, hc, hs]
        · by_cases hs : p ∈ second.packages.values <;> simp [hv, hc, hs]

/-- **Packages compose from either side alike exactly when those of the third table go on where
those of the second stop.** -/
theorem get?_packages_eq_iff :
    (∀ p, (fromLeft first second third).packages.get? p =
        (fromRight first second third).packages.get? p) ↔
      PackagesContinue first second third := by
  constructor
  · intro h
    constructor
    · intro q hq hkey hvalue
      obtain ⟨p, hp⟩ := OrderedMap.mem_values_iff.1 hq
      exact (get?_packages_of_get? h₁ h₂ h₃ hp).1 (h p) hkey hvalue
    · intro p hthird hfirst
      have hnone := OrderedMap.get?_eq_none_iff.2 hfirst
      exact (get?_packages_of_get?_eq_none h₁ h₂ h₃ hnone).1 (h p) hthird
  · intro h p
    cases hfirst : first.packages.get? p with
    | some q =>
      exact (get?_packages_of_get? h₁ h₂ h₃ hfirst).2
        (h.kept q (OrderedMap.mem_values_of_get? hfirst))
    | none =>
      exact (get?_packages_of_get?_eq_none h₁ h₂ h₃ hfirst).2 fun hthird =>
        h.unmentioned p hthird (OrderedMap.get?_eq_none_iff.1 hfirst)

end Canonical

end Table

end Renaming
