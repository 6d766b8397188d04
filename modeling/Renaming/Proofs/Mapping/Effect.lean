import Mathlib.Data.List.Perm.Subperm
import Renaming.Proofs.Mapping.Alike
import Renaming.Proofs.Mapping.Notation
import Renaming.Proofs.Mapping.Owner

/-!
# `Proofs/Mapping/Effect` — what a part of a file does to a mapping

A row, or a class with the rows below it, adds a package or changes one class. Two such effects can
change places if they are about different classes, or if the changes of the one class can (`Apart`).
Then the mappings are alike, and so

> effects of which any two can change places make alike mappings in any order (`foldl_into_alike`).

A change may look at the order of members, as a comment on the last of them does, and then it is not
the same change for classes that are alike. Where every class is changed once this does not matter,
since each change finds the class as it is when it is only mentioned (`foldl_into_alike_of_nodup`).
-/

set_option autoImplicit false

namespace Renaming

namespace Mapping

/-- A package that is added, or a change of one class, which is mentioned if it was not there. -/
inductive Effect where
  | package (source target : Text)
  | onClass (first : Text) (change : ClassRow → ClassRow)

namespace Effect

def into (m : Mapping) : Effect → Mapping
  | package source target => m.addPackage source target
  | onClass first change => m.onOwner first change

def first? : Effect → Option Text
  | package _ _ => none
  | onClass first _ => some first

/-- Classes that are alike are changed alike. -/
def Respects : Effect → Prop
  | package _ _ => True
  | onClass _ change => ∀ c c', c.Alike c' → (change c).Alike (change c')

/-- The order of the effects does not count. -/
def Apart : Effect → Effect → Prop
  | onClass first change, onClass first' change' =>
    first = first' → ∀ c, (change' (change c)).Alike (change (change' c))
  | _, _ => True

theorem apart_symm : Std.Symm Apart where
  symm e e' h := by
    cases e with
    | package => cases e' <;> exact trivial
    | onClass first change =>
      cases e' with
      | package => exact trivial
      | onClass first' change' => exact fun heq c => (h heq.symm c).symm

end Effect

/-! ## One effect -/

theorem rel_refl (c : Option ClassRow) : Option.Rel ClassRow.Alike c c := by
  cases c with
  | none => exact .none
  | some c => exact .some (.refl c)

theorem format_into (m : Mapping) (e : Effect) : (e.into m).format = m.format := by
  cases e with
  | package => rfl
  | onClass first change => exact format_onOwner m first change

theorem namespaces_into_effect (m : Mapping) (e : Effect) :
    (e.into m).namespaces = m.namespaces := by
  cases e with
  | package => rfl
  | onClass first change => exact namespaces_onOwner m first change

theorem format_foldl (es : List Effect) (m : Mapping) :
    (es.foldl Effect.into m).format = m.format := by
  induction es generalizing m with
  | nil => rfl
  | cons e es ih => exact (ih (e.into m)).trans (format_into m e)

theorem namespaces_foldl (es : List Effect) (m : Mapping) :
    (es.foldl Effect.into m).namespaces = m.namespaces := by
  induction es generalizing m with
  | nil => rfl
  | cons e es ih => exact (ih (e.into m)).trans (namespaces_into_effect m e)

theorem mentioned_congr {m m' : Mapping} (h : m.namespaces = m'.namespaces) (first : Text) :
    m.mentioned first = m'.mentioned first := by
  rw [mentioned, mentioned, h]

theorem Alike.into {m m' : Mapping} (h : m.Alike m') {e : Effect} (he : e.Respects) :
    (e.into m).Alike (e.into m') := by
  constructor
  · rw [format_into, format_into, h.format]
  · rw [namespaces_into_effect, namespaces_into_effect, h.namespaces]
  · intro p
    cases e with
    | package source target =>
      show p ∈ m.packages ++ _ ↔ p ∈ m'.packages ++ _
      rw [List.mem_append, List.mem_append, h.packages]
    | onClass first change =>
      show p ∈ (m.onOwner first change).packages ↔ p ∈ (m'.onOwner first change).packages
      rw [packages_onOwner, packages_onOwner, h.packages]
  · intro first'
    cases e with
    | package source target => exact h.classes first'
    | onClass first change =>
      show Option.Rel _ ((m.onOwner first change).classes.get? first')
        ((m'.onOwner first change).classes.get? first')
      rw [get?_onOwner, get?_onOwner]
      split
      · apply Option.Rel.some
        apply he
        cases hc : m.classes.get? first with
        | some c =>
          obtain ⟨c', hc', halike⟩ := h.exists_get? hc
          rw [hc']
          exact halike
        | none =>
          have hnone : m'.classes.get? first = none := by
            cases hc' : m'.classes.get? first with
            | none => rfl
            | some c' =>
              obtain ⟨c, hc₀, -⟩ := h.symm.exists_get? hc'
              rw [hc] at hc₀
              cases hc₀
          rw [hnone, mentioned_congr h.namespaces]
          exact .refl _
      · exact h.classes first'

/-- Whatever order two effects have, their packages are the same. -/
theorem mem_packages_swap (m : Mapping) (e e' : Effect) (p : Text × Text) :
    p ∈ (e'.into (e.into m)).packages ↔ p ∈ (e.into (e'.into m)).packages := by
  cases e with
  | package source target =>
    cases e' with
    | package source' target' =>
      show p ∈ (m.packages ++ [_]) ++ [_] ↔ p ∈ (m.packages ++ [_]) ++ [_]
      simp only [List.mem_append, or_right_comm]
    | onClass first' change' =>
      show p ∈ ((m.addPackage source target).onOwner first' change').packages ↔
        p ∈ (m.onOwner first' change').packages ++ _
      rw [packages_onOwner, packages_onOwner]
      rfl
  | onClass first change =>
    cases e' with
    | package source' target' =>
      show p ∈ (m.onOwner first change).packages ++ _ ↔
        p ∈ ((m.addPackage source' target').onOwner first change).packages
      rw [packages_onOwner, packages_onOwner]
      rfl
    | onClass first' change' =>
      show p ∈ ((m.onOwner first change).onOwner first' change').packages ↔
        p ∈ ((m.onOwner first' change').onOwner first change).packages
      simp only [packages_onOwner]

/-- A change of one class is not seen in another. -/
theorem get?_onOwner_swap (m : Mapping) {first first' : Text} (hne : first ≠ first')
    (change change' : ClassRow → ClassRow) (name : Text) :
    ((m.onOwner first change).onOwner first' change').classes.get? name =
      ((m.onOwner first' change').onOwner first change).classes.get? name := by
  have hmentioned : ∀ first first' change,
      (m.onOwner first' change).mentioned first = m.mentioned first := fun first first' change =>
    mentioned_congr (namespaces_into_effect m (.onClass first' change)) first
  rw [get?_onOwner, get?_onOwner m first change, get?_onOwner m first change,
    get?_onOwner (m.onOwner first' change'), get?_onOwner m first' change',
    get?_onOwner m first' change', hmentioned, hmentioned, if_neg hne, if_neg (Ne.symm hne)]
  by_cases hname : name = first'
  · rw [if_pos hname, if_neg fun h => hne (h.symm.trans hname), if_pos hname]
  · rw [if_neg hname, if_neg hname]

/-- **Two effects change places.** -/
theorem alike_swap (m : Mapping) {e e' : Effect} (h : e.Apart e') :
    (e'.into (e.into m)).Alike (e.into (e'.into m)) := by
  constructor
  · simp only [format_into]
  · simp only [namespaces_into_effect]
  · exact mem_packages_swap m e e'
  · intro name
    cases e with
    | package source target =>
      cases e' with
      | package source' target' => exact rel_refl _
      | onClass first' change' =>
        show Option.Rel _ (((m.addPackage source target).onOwner first' change').classes.get? name)
          ((m.onOwner first' change').classes.get? name)
        rw [get?_onOwner, get?_onOwner]
        exact rel_refl _
    | onClass first change =>
      cases e' with
      | package source' target' =>
        show Option.Rel _ ((m.onOwner first change).classes.get? name)
          (((m.addPackage source' target').onOwner first change).classes.get? name)
        rw [get?_onOwner, get?_onOwner]
        exact rel_refl _
      | onClass first' change' =>
        show Option.Rel _ (((m.onOwner first change).onOwner first' change').classes.get? name)
          (((m.onOwner first' change').onOwner first change).classes.get? name)
        by_cases heq : first = first'
        · -- changes of one class are one change
          rw [← heq, onOwner_onOwner, onOwner_onOwner, get?_onOwner, get?_onOwner]
          split
          · exact .some (h heq _)
          · exact rel_refl _
        · rw [get?_onOwner_swap m heq]
          exact rel_refl _

/-! ## Effects in any order -/

theorem Alike.foldl_into {es : List Effect} (hes : ∀ e ∈ es, e.Respects) {m m' : Mapping}
    (h : m.Alike m') : (es.foldl Effect.into m).Alike (es.foldl Effect.into m') := by
  induction es generalizing m m' with
  | nil => exact h
  | cons e es ih =>
    rw [List.forall_mem_cons] at hes
    exact ih hes.2 (h.into hes.1)

/-- **Effects that can change places may come in any order.** -/
theorem foldl_into_alike {es es' : List Effect} (h : es.Perm es') (hes : ∀ e ∈ es, e.Respects)
    (hapart : es.Pairwise Effect.Apart) (m : Mapping) :
    (es.foldl Effect.into m).Alike (es'.foldl Effect.into m) := by
  induction h generalizing m with
  | nil => exact .refl m
  | cons e _ ih =>
    rw [List.forall_mem_cons] at hes
    exact ih hes.2 (List.pairwise_cons.1 hapart).2 (e.into m)
  | swap e e' es =>
    rw [List.forall_mem_cons, List.forall_mem_cons] at hes
    have hswap := (List.pairwise_cons.1 hapart).1 e List.mem_cons_self
    exact (alike_swap m hswap).foldl_into hes.2.2
  | trans hfirst _ ih ih' =>
    have hes' := fun e he => hes e (hfirst.mem_iff.2 he)
    have hapart' := (hfirst.pairwise_iff fun h => Effect.apart_symm.symm _ _ h).1 hapart
    exact (ih hes hapart m).trans (ih' hes' hapart' m)

/-! ## One effect for each class -/

theorem length_packages_foldl (es : List Effect) (m : Mapping) :
    (es.foldl Effect.into m).packages.length + (es.filterMap Effect.first?).length =
      m.packages.length + es.length := by
  induction es generalizing m with
  | nil => rfl
  | cons e es ih =>
    have hrest := ih (e.into m)
    cases e with
    | package source target =>
      have hlength : ((Effect.package source target).into m).packages.length =
          m.packages.length + 1 := List.length_append
      rw [List.foldl_cons, List.filterMap_cons_none rfl, List.length_cons]
      omega
    | onClass first change =>
      have hpackages : ((Effect.onClass first change).into m).packages = m.packages :=
        packages_onOwner m first change
      rw [hpackages] at hrest
      rw [List.foldl_cons, List.filterMap_cons_some (f := Effect.first?) rfl, List.length_cons,
        List.length_cons]
      omega

theorem mem_keys_foldl {es : List Effect} {m : Mapping} {first : Text}
    (h : first ∈ (es.foldl Effect.into m).classes.keys) :
    first ∈ m.classes.keys ∨ first ∈ es.filterMap Effect.first? := by
  induction es generalizing m with
  | nil => exact .inl h
  | cons e es ih =>
    rcases ih h with hkeys | hrest
    · cases e with
      | package source target => exact .inl hkeys
      | onClass first' change =>
        change first ∈ (m.onOwner first' change).classes.keys at hkeys
        rw [List.filterMap_cons_some (f := Effect.first?) rfl]
        rw [keys_onOwner] at hkeys
        split at hkeys
        · exact .inl hkeys
        · rcases List.mem_append.1 hkeys with hkeys | hnew
          · exact .inl hkeys
          · exact .inr (List.mem_cons.2 (.inl (List.mem_singleton.1 hnew)))
    · right
      cases e with
      | package source target => exact hrest
      | onClass first' change => exact List.mem_cons_of_mem _ hrest

/-- Where there are as many effects as packages and classes, no class is changed twice. -/
theorem nodup_firsts {es : List Effect} {format : Format} {namespaces : List Text}
    (h : es.length = (es.foldl Effect.into (ofNamespaces format namespaces)).packages.length +
      (es.foldl Effect.into (ofNamespaces format namespaces)).classes.size) :
    (es.filterMap Effect.first?).Nodup := by
  have hpackages := length_packages_foldl es (ofNamespaces format namespaces)
  have hkeys : ∀ first ∈ (es.foldl Effect.into (ofNamespaces format namespaces)).classes.keys,
      first ∈ es.filterMap Effect.first? := by
    intro first hfirst
    rcases mem_keys_foldl hfirst with hstart | hfirst
    · cases hstart
    · exact hfirst
  generalize es.foldl Effect.into (ofNamespaces format namespaces) = m at h hpackages hkeys
  have hlength : (es.filterMap Effect.first?).length ≤ m.classes.keys.length := by
    have hsize : m.classes.keys.length = m.classes.size := List.length_map _
    have hempty : (ofNamespaces format namespaces).packages.length = 0 := rfl
    omega
  have hperm := (m.classes.nodup_keys.subperm hkeys).perm_of_length_le hlength
  exact hperm.nodup_iff.1 m.classes.nodup_keys

theorem mem_packages_foldl {es : List Effect} {m : Mapping} {p : Text × Text} :
    p ∈ (es.foldl Effect.into m).packages ↔ p ∈ m.packages ∨ Effect.package p.1 p.2 ∈ es := by
  induction es generalizing m with
  | nil => simp
  | cons e es ih =>
    rw [List.foldl_cons, ih, List.mem_cons]
    cases e with
    | package source target =>
      have hadded : p ∈ ((Effect.package source target).into m).packages ↔
          p ∈ m.packages ∨ p = (source, target) := by
        show p ∈ m.packages ++ [(source, target)] ↔ _
        rw [List.mem_append, List.mem_singleton]
      rw [hadded, Effect.package.injEq, or_assoc, Prod.ext_iff]
    | onClass first change =>
      have hkept : ((Effect.onClass first change).into m).packages = m.packages :=
        packages_onOwner m first change
      rw [hkept]
      simp

/-- Where no class is changed twice, each of them is what its one change makes of a class that is
only mentioned. -/
theorem get?_foldl_eq_some_iff {es : List Effect} (hnodup : (es.filterMap Effect.first?).Nodup)
    {m : Mapping} (hfresh : ∀ first ∈ es.filterMap Effect.first?, m.classes.get? first = none)
    {name : Text} {c : ClassRow} :
    (es.foldl Effect.into m).classes.get? name = some c ↔ m.classes.get? name = some c ∨
      ∃ change, Effect.onClass name change ∈ es ∧ c = change (m.mentioned name) := by
  induction es generalizing m with
  | nil => simp
  | cons e es ih =>
    cases e with
    | package source target =>
      refine (ih (m := m.addPackage source target) hnodup hfresh).trans ?_
      simp only [List.mem_cons, reduceCtorEq, false_or]
      exact Iff.rfl
    | onClass first change =>
      rw [List.filterMap_cons_some (f := Effect.first?) rfl] at hnodup hfresh
      rw [List.nodup_cons] at hnodup
      rw [List.forall_mem_cons] at hfresh
      have hget : ∀ name, (m.onOwner first change).classes.get? name =
          if name = first then some (change (m.mentioned first)) else m.classes.get? name := by
        intro name
        rw [get?_onOwner, hfresh.1]
        rfl
      have hmentioned : (m.onOwner first change).mentioned name = m.mentioned name :=
        mentioned_congr (namespaces_into_effect m (.onClass first change)) name
      rw [List.foldl_cons, show (Effect.onClass first change).into m = m.onOwner first change from rfl,
        ih hnodup.2 ?fresh, hget, hmentioned]
      case fresh =>
        intro first' hfirst'
        rw [hget, if_neg (ne_of_mem_of_not_mem hfirst' hnodup.1)]
        exact hfresh.2 first' hfirst'
      by_cases heq : name = first
      · subst heq
        rw [if_pos rfl, hfresh.1]
        simp only [Option.some.injEq, reduceCtorEq, false_or, List.mem_cons, Effect.onClass.injEq,
          true_and, or_and_right, exists_or, exists_eq_left]
        rw [eq_comm]
      · simp only [if_false, List.mem_cons, Effect.onClass.injEq, heq, false_and, false_or]

/-- **Effects on different classes may come in any order.** -/
theorem foldl_into_alike_of_nodup {es es' : List Effect} (h : es.Perm es')
    (hnodup : (es.filterMap Effect.first?).Nodup) (format : Format) (namespaces : List Text) :
    (es.foldl Effect.into (ofNamespaces format namespaces)).Alike
      (es'.foldl Effect.into (ofNamespaces format namespaces)) := by
  have hnodup' : (es'.filterMap Effect.first?).Nodup :=
    (h.filterMap Effect.first?).nodup_iff.1 hnodup
  constructor
  · rw [format_foldl, format_foldl]
  · rw [namespaces_foldl, namespaces_foldl]
  · intro p
    rw [mem_packages_foldl, mem_packages_foldl, h.mem_iff]
  · intro name
    have hget : (es.foldl Effect.into (ofNamespaces format namespaces)).classes.get? name =
        (es'.foldl Effect.into (ofNamespaces format namespaces)).classes.get? name := by
      apply Option.ext
      intro c
      rw [get?_foldl_eq_some_iff hnodup fun _ _ => rfl, get?_foldl_eq_some_iff hnodup' fun _ _ => rfl]
      simp only [h.mem_iff]
    rw [hget]
    exact rel_refl _

end Mapping

end Renaming
