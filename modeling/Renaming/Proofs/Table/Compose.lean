import Mathlib.Data.List.Basic
import Renaming.Proofs.Symbol.Key
import Renaming.Proofs.Table.Filling
import Renaming.Proofs.Table.Target
import Renaming.Table.Compose

/-!
# `Proofs/Table/Compose` — what the maps of a composition hold

A composition is filled entry by entry, and every map of it is the corresponding map of the first
table with its values carried on. Nobody who uses a composition wants to know the loop, so here
each map is given by its look-ups:

* a class has a rename of its own exactly when the first table has one (`get?_compose_classes`);
* a field or a method has one exactly when the first table has one under a key that can be read
  (`get?_compose_fields`, `get?_compose_methods`).

The last part is about comments, the only thing that can go wrong: as long as all of them are texts
or missing, every two tables have a composition (`composed_of_plain`).
-/

set_option autoImplicit false

namespace Renaming

namespace OrderedMap

variable {κ α β : Type} [DecidableEq κ]

/-- The map with a value under `k`, if there is one to write. -/
def insertSome (m : OrderedMap κ α) (k : κ) : Option α → OrderedMap κ α
  | some v => m.insert k v
  | none => m

/-- Pairs written one after the other under different keys. -/
theorem get?_foldl_insertSome (g : κ → α → Option β) {l : List (κ × α)}
    (hl : (l.map Prod.fst).Nodup) (m : OrderedMap κ β) (k : κ) :
    (l.foldl (fun m p => m.insertSome p.1 (g p.1 p.2)) m).get? k =
      ((find? k l).bind (g k)).or (m.get? k) := by
  induction l generalizing m with
  | nil => rfl
  | cons p r ih =>
    rw [List.map_cons, List.nodup_cons] at hl
    rw [List.foldl_cons, ih hl.2, find?]
    by_cases hk : p.1 = k
    · -- no later pair has this key
      obtain rfl := hk
      have hnone : find? p.1 r = none := find?_eq_none_iff.2 hl.1
      rw [hnone, if_pos rfl, Option.bind_none, Option.none_or, Option.bind_some]
      cases g p.1 p.2 with
      | none => rfl
      | some v => exact get?_insert_self m p.1 v
    · rw [if_neg hk]
      congr 1
      cases g p.1 p.2 with
      | none => rfl
      | some v => exact get?_insert_of_ne m (Ne.symm hk) v

end OrderedMap

namespace Table

/-! ## One map of a table that is filled -/

/-- A loop that writes into one map of a table. -/
theorem foldl_insertSome {α β : Type} (f : Table → OrderedMap Text β) (g : Text → α → Option β)
    {l : List (Text × α)} {step : Table → Text × α → Table}
    (h : ∀ r, ∀ x ∈ l, f (step r x) = (f r).insertSome x.1 (g x.1 x.2)) (r : Table) :
    f (l.foldl step r) = l.foldl (fun m x => m.insertSome x.1 (g x.1 x.2)) (f r) := by
  induction l generalizing r with
  | nil => rfl
  | cons x l ih =>
    rw [List.foldl_cons, List.foldl_cons, ih fun r y hy => h r y (List.mem_cons_of_mem _ hy),
      h r x List.mem_cons_self]

section Parts

variable (first second : Table) (i j : SourceIndex) (r : Table)

theorem composePackages_keeps {γ : Type} (f : Table → γ)
    (h : ∀ r source target, f (addPackage r source target) = f r) :
    f (composePackages first second r) = f r := by
  unfold composePackages
  rw [foldl_keeps f, foldl_keeps f]
  · exact fun r p => h r p.1 _
  · intro r p
    split
    · rfl
    · exact h r p.1 p.2

theorem composeClasses_keeps {γ : Type} (f : Table → γ)
    (h : ∀ r source target comment, f (addClass r source target comment) = f r) :
    f (composeClasses first second i j r) = f r :=
  foldl_keeps f (fun r _ => h r _ _ _) _ r

theorem composeFields_keeps {γ : Type} (f : Table → γ)
    (h : ∀ r key target e, f ((addField r key target).addEntry e) = f r) :
    f (composeFields first second i j r) = f r := by
  refine foldl_keeps f (fun r p => ?_) _ r
  dsimp only
  split
  · exact h r _ _ _
  · rfl

theorem composeMethods_keeps {γ : Type} (f : Table → γ)
    (h : ∀ r key target e, f ((addMethod r key target).addEntry e) = f r) :
    f (composeMethods first second i j r) = f r := by
  refine foldl_keeps f (fun r p => ?_) _ r
  dsimp only
  split
  · exact h r _ _ _
  · rfl

theorem composeClasses_classes :
    (composeClasses first second i j r).classes =
      first.classes.toList.foldl (fun m p => m.insertSome p.1 (some (second.mapNested p.2)))
        r.classes :=
  foldl_insertSome Table.classes (fun _ mid => some (second.mapNested mid)) (fun _ _ _ => rfl) r

theorem composeFields_fields :
    (composeFields first second i j r).fields =
      first.fields.toList.foldl (fun m p => m.insertSome p.1 ((MemberKey.parse p.1).toOption.map
        fun k => (composedField first second i j k p.2).targetName)) r.fields := by
  refine foldl_insertSome Table.fields (fun key mid => (MemberKey.parse key).toOption.map fun k =>
    (composedField first second i j k mid).targetName) (fun r p _ => ?_) r
  dsimp only
  cases MemberKey.parse p.1 <;> rfl

theorem composeMethods_methods :
    (composeMethods first second i j r).methods =
      first.methods.toList.foldl (fun m p => m.insertSome p.1
        ((MemberKey.parseMethod p.1).toOption.map fun k =>
          (composedMethod first second i j k p.2).targetName)) r.methods := by
  refine foldl_insertSome Table.methods (fun key mid => (MemberKey.parseMethod key).toOption.map
    fun k => (composedMethod first second i j k mid).targetName) (fun r p _ => ?_) r
  dsimp only
  cases MemberKey.parseMethod p.1 <;> rfl

end Parts

/-- Packages are kept in the one form, so that writing one again changes nothing. -/
def CanonicalPackages (t : Table) : Prop :=
  ∀ p ∈ t.packages.keys ++ t.packages.values, Package.canonical p = p

theorem canonicalPackages_iff {t : Table} : t.CanonicalPackages ↔
    ∀ p q, t.packages.get? p = some q → Package.canonical p = p ∧ Package.canonical q = q := by
  constructor
  · intro h p q hget
    have hp : p ∈ t.packages.keys := by
      rw [OrderedMap.mem_keys_iff, hget]
      rfl
    exact ⟨h p (List.mem_append_left _ hp),
      h q (List.mem_append_right _ (OrderedMap.mem_values_of_get? hget))⟩
  · intro h p hp
    rcases List.mem_append.1 hp with hp | hp
    · obtain ⟨q, hq⟩ := Option.isSome_iff_exists.1 (OrderedMap.mem_keys_iff.1 hp)
      exact (h p q hq).1
    · obtain ⟨k, hk⟩ := OrderedMap.mem_values_iff.1 hp
      exact (h k p hk).2

/-! ## The maps of a composition -/

section Maps

variable (first second : Table)

/-- **A class of a composition is a class of the first table, carried on by the second.** -/
theorem get?_compose_classes (name : Text) :
    (first.compose second).classes.get? name =
      (first.classes.get? name).map second.mapNested := by
  show (composeMethods first second first.bySource second.bySource _).classes.get? name = _
  rw [composeMethods_keeps _ _ _ _ _ Table.classes fun _ _ _ _ => rfl,
    composeFields_keeps _ _ _ _ _ Table.classes fun _ _ _ _ => rfl, composeClasses_classes,
    composePackages_keeps _ _ _ Table.classes fun _ _ _ => rfl]
  have h := OrderedMap.get?_foldl_insertSome (fun _ mid => some (second.mapNested mid))
    first.classes.nodup_keys .empty name
  rw [OrderedMap.get?_empty, Option.or_none] at h
  exact h.trans (Option.map_eq_bind).symm

/-- Exclusions are about the names before the first step. -/
theorem compose_excluded :
    (first.compose second).excluded = (empty.excludePrefixes first.excluded).excluded := by
  show (excludePrefixes (composeMethods first second first.bySource second.bySource _)
    first.excluded).excluded = _
  rw [excludePrefixes, composeMethods_keeps _ _ _ _ _ Table.excluded fun _ _ _ _ => rfl,
    composeFields_keeps _ _ _ _ _ Table.excluded fun _ _ _ _ => rfl,
    composeClasses_keeps _ _ _ _ _ Table.excluded fun _ _ _ _ => rfl,
    composePackages_keeps _ _ _ Table.excluded fun _ _ _ => rfl]
  rfl

variable {first second} in
/-- **A package of a composition is a package of the first table, moved on if its new name as a
whole is a package of the second, or a package that only the second table knows.** -/
theorem get?_compose_packages (h₁ : first.CanonicalPackages) (h₂ : second.CanonicalPackages)
    (p : Text) :
    (first.compose second).packages.get? p =
      ((first.packages.get? p).map fun q => second.packages.getD q q).or
        (if p ∈ first.packages.values then none else second.packages.get? p) := by
  have hkey : ∀ {t : Table}, t.CanonicalPackages → ∀ x ∈ t.packages.toList,
      Package.canonical x.1 = x.1 ∧ Package.canonical x.2 = x.2 := by
    intro t ht x hx
    exact ⟨ht _ (List.mem_append_left _ (List.mem_map_of_mem hx)),
      ht _ (List.mem_append_right _ (List.mem_map_of_mem hx))⟩
  have hfirst : ∀ r : Table, ∀ x ∈ first.packages.toList,
      (r.addPackage x.1 (second.packages.getD x.2 x.2)).packages =
        r.packages.insertSome x.1 (some (second.packages.getD x.2 x.2)) := by
    intro r x hx
    have htarget : Package.canonical (second.packages.getD x.2 x.2) =
        second.packages.getD x.2 x.2 := by
      unfold OrderedMap.getD
      cases hq : second.packages.get? x.2 with
      | none => exact (hkey h₁ x hx).2
      | some q => exact (hkey h₂ _ (OrderedMap.get?_eq_some_iff.1 hq)).2
    show r.packages.insert (Package.canonical x.1) (Package.canonical _) = _
    rw [(hkey h₁ x hx).1, htarget]
    rfl
  have hsecond : ∀ r : Table, ∀ x ∈ second.packages.toList,
      (if x.1 ∈ first.packages.values ∨ x.1 ∈ first.packages.keys then r
        else r.addPackage x.1 x.2).packages =
      r.packages.insertSome x.1
        (if x.1 ∈ first.packages.values ∨ x.1 ∈ first.packages.keys then none else some x.2) := by
    intro r x hx
    split
    · rfl
    · show r.packages.insert (Package.canonical x.1) (Package.canonical x.2) = _
      rw [(hkey h₂ x hx).1, (hkey h₂ x hx).2]
      rfl
  have hloops : (composePackages first second empty).packages.get? p =
      ((second.packages.get? p).bind fun q =>
        if p ∈ first.packages.values ∨ p ∈ first.packages.keys then none else some q).or
      (((first.packages.get? p).bind fun q => some (second.packages.getD q q)).or none) := by
    rw [composePackages,
      foldl_insertSome Table.packages (fun p q =>
        if p ∈ first.packages.values ∨ p ∈ first.packages.keys then none else some q) hsecond,
      OrderedMap.get?_foldl_insertSome (fun p q =>
        if p ∈ first.packages.values ∨ p ∈ first.packages.keys then none else some q)
        second.packages.nodup_keys,
      foldl_insertSome Table.packages (fun _ q => some (second.packages.getD q q)) hfirst,
      OrderedMap.get?_foldl_insertSome (fun _ q => some (second.packages.getD q q))
        first.packages.nodup_keys]
    rfl
  show (composeMethods first second first.bySource second.bySource _).packages.get? p = _
  rw [composeMethods_keeps _ _ _ _ _ Table.packages fun _ _ _ _ => rfl,
    composeFields_keeps _ _ _ _ _ Table.packages fun _ _ _ _ => rfl,
    composeClasses_keeps _ _ _ _ _ Table.packages fun _ _ _ _ => rfl, hloops]
  cases hget : first.packages.get? p with
  | none =>
    have hkeys : p ∉ first.packages.keys := OrderedMap.get?_eq_none_iff.1 hget
    cases second.packages.get? p with
    | none => simp
    | some q => by_cases hv : p ∈ first.packages.values <;> simp [hv, hkeys]
  | some q =>
    have hkeys : p ∈ first.packages.keys := by rw [OrderedMap.mem_keys_iff, hget]; rfl
    cases second.packages.get? p <;> simp [hkeys]

theorem get?_compose_fields (key : Text) :
    (first.compose second).fields.get? key =
      (first.fields.get? key).bind fun mid => (MemberKey.parse key).toOption.map fun k =>
        (composedField first second first.bySource second.bySource k mid).targetName := by
  show (composeMethods first second first.bySource second.bySource _).fields.get? key = _
  rw [composeMethods_keeps _ _ _ _ _ Table.fields fun _ _ _ _ => rfl, composeFields_fields,
    composeClasses_keeps _ _ _ _ _ Table.fields fun _ _ _ _ => rfl,
    composePackages_keeps _ _ _ Table.fields fun _ _ _ => rfl]
  have h := OrderedMap.get?_foldl_insertSome (fun key mid => (MemberKey.parse key).toOption.map
    fun k => (composedField first second first.bySource second.bySource k mid).targetName)
    first.fields.nodup_keys .empty key
  rw [OrderedMap.get?_empty, Option.or_none] at h
  exact h

theorem get?_compose_methods (key : Text) :
    (first.compose second).methods.get? key =
      (first.methods.get? key).bind fun mid => (MemberKey.parseMethod key).toOption.map fun k =>
        (composedMethod first second first.bySource second.bySource k mid).targetName := by
  show (composeMethods first second first.bySource second.bySource _).methods.get? key = _
  rw [composeMethods_methods,
    composeFields_keeps _ _ _ _ _ Table.methods fun _ _ _ _ => rfl,
    composeClasses_keeps _ _ _ _ _ Table.methods fun _ _ _ _ => rfl,
    composePackages_keeps _ _ _ Table.methods fun _ _ _ => rfl]
  have h := OrderedMap.get?_foldl_insertSome (fun key mid =>
    (MemberKey.parseMethod key).toOption.map fun k =>
      (composedMethod first second first.bySource second.bySource k mid).targetName)
    first.methods.nodup_keys .empty key
  rw [OrderedMap.get?_empty, Option.or_none] at h
  exact h

end Maps

end Table

/-! ## Comments -/

/-- Whether a comment is a text or missing. -/
def Datum.IsPlain (c : Datum) : Prop := ∃ t, c = Datum.ofText? t

theorem isPlain_mergeComments {a b : Datum} (ha : a.IsPlain) (hb : b.IsPlain) :
    (mergeComments a b).IsPlain := by
  unfold mergeComments
  split
  · exact ⟨some _, rfl⟩
  · split
    · exact ha
    · split
      · exact hb
      · exact ⟨none, rfl⟩

/-- Texts can always be compared and written. -/
theorem checkComments_of_isPlain {a b : Datum} (ha : a.IsPlain) (hb : b.IsPlain) :
    checkComments a b = .ok () := by
  obtain ⟨s, rfl⟩ := ha
  obtain ⟨t, rfl⟩ := hb
  unfold checkComments
  split
  · cases s <;> cases t <;> simp only [Datum.ofText?, Datum.differ?, Datum.text, Datum.null] <;>
      split <;> first | rfl | contradiction
  · rfl

namespace OrderedMap

variable {κ α : Type} [DecidableEq κ]

theorem forall_values_insert {q : α → Prop} {m : OrderedMap κ α} {k : κ} {v : α}
    (hm : ∀ w ∈ m.values, q w) (hv : q v) : ∀ w ∈ (m.insert k v).values, q w := by
  intro w hw
  obtain ⟨k', hk'⟩ := mem_values_iff.1 hw
  rw [get?_insert] at hk'
  split at hk'
  · obtain rfl := Option.some.inj hk'
    exact hv
  · exact hm w (mem_values_of_get? hk')

end OrderedMap

namespace Table

/-- All comments of the table are texts or missing. -/
def PlainComments (t : Table) : Prop := ∀ e ∈ t.entries.values, e.comment.IsPlain

theorem PlainComments.addEntry {t : Table} (ht : t.PlainComments) {e : Entry}
    (he : e.comment.IsPlain) : (t.addEntry e).PlainComments :=
  OrderedMap.forall_values_insert ht he

/-- The entries at hand by their sources are entries of the table. -/
theorem PlainComments.bySource {t : Table} (ht : t.PlainComments) :
    ∀ e ∈ t.bySource.values, e.comment.IsPlain := by
  let plain (m : SourceIndex) : Prop := ∀ e ∈ m.values, e.comment.IsPlain
  have hempty : plain .empty := fun e he => absurd he List.not_mem_nil
  refine List.foldlRecOn (motive := plain) t.entries.values _ hempty fun m hm e he => ?_
  exact List.foldlRecOn (motive := plain) (sourceKeys e) _ hm fun m hm _ _ =>
    OrderedMap.forall_values_insert hm (ht e he)

theorem isPlain_commentOf {m : SourceIndex} (hm : ∀ e ∈ m.values, e.comment.IsPlain)
    (k : SymbolKind × Text) : (commentOf (m.get? k)).IsPlain := by
  cases h : m.get? k with
  | none => exact ⟨none, rfl⟩
  | some e => exact hm e (OrderedMap.mem_values_of_get? h)

section Plain

variable {first second : Table} {i j : SourceIndex} (hi : ∀ e ∈ i.values, e.comment.IsPlain)
  (hj : ∀ e ∈ j.values, e.comment.IsPlain)

include hi hj

theorem isPlain_classComments (source mid : Text) :
    (classComments i j source mid).1.IsPlain ∧ (classComments i j source mid).2.IsPlain :=
  ⟨isPlain_commentOf hi _, isPlain_commentOf hj _⟩

theorem isPlain_methodComments (k : MemberKey) (mid : Text) :
    (methodComments first i j k mid).1.IsPlain ∧ (methodComments first i j k mid).2.IsPlain :=
  ⟨isPlain_commentOf hi _, isPlain_commentOf hj _⟩

theorem isPlain_fieldComments (k : MemberKey) (mid : Text) :
    (fieldComments first i j k mid).1.IsPlain ∧ (fieldComments first i j k mid).2.IsPlain := by
  -- a field is looked up twice, with and without its signature
  have field : ∀ {m : SourceIndex}, (∀ e ∈ m.values, e.comment.IsPlain) →
      ∀ owner name d, (commentOf (m.ofField? owner name d)).IsPlain := by
    intro m hm owner name d
    unfold SourceIndex.ofField?
    split
    · rename_i e he
      obtain ⟨d', -, hd⟩ := Option.bind_eq_some_iff.1 he
      exact hm e (OrderedMap.mem_values_of_get? hd)
    · exact isPlain_commentOf hm _
  exact ⟨field hi .., field hj ..⟩

theorem forM_checkComments :
    (commentPairs first i j).forM (fun c => checkComments c.1 c.2) = .ok () := by
  have all : ∀ c ∈ commentPairs first i j, c.1.IsPlain ∧ c.2.IsPlain := by
    intro c hc
    simp only [commentPairs, List.mem_append, List.mem_map, List.mem_filterMap] at hc
    rcases hc with (⟨p, -, rfl⟩ | ⟨p, -, hp⟩) | ⟨p, -, hp⟩
    · exact isPlain_classComments hi hj ..
    · split at hp
      · obtain rfl := Option.some.inj hp
        exact isPlain_fieldComments hi hj ..
      · cases hp
    · split at hp
      · obtain rfl := Option.some.inj hp
        exact isPlain_methodComments hi hj ..
      · cases hp
  generalize commentPairs first i j = l at all
  induction l with
  | nil => rfl
  | cons c l ih =>
    obtain ⟨h₁, h₂⟩ := all c List.mem_cons_self
    show (checkComments c.1 c.2 >>= fun _ => l.forM fun c => checkComments c.1 c.2) = .ok ()
    rw [checkComments_of_isPlain h₁ h₂]
    exact ih fun c' hc' => all c' (List.mem_cons_of_mem _ hc')

theorem PlainComments.composeClasses {r : Table} (hr : r.PlainComments) :
    (composeClasses first second i j r).PlainComments := by
  refine List.foldlRecOn (motive := PlainComments) _ _ hr fun r hr p _ => ?_
  have h := isPlain_classComments hi hj p.1 p.2
  exact PlainComments.addEntry (t := { r with classes := _ }) hr (isPlain_mergeComments h.1 h.2)

theorem PlainComments.composeFields {r : Table} (hr : r.PlainComments) :
    (composeFields first second i j r).PlainComments := by
  refine List.foldlRecOn (motive := PlainComments) _ _ hr fun r hr p _ => ?_
  split
  · rename_i k _
    have h := @isPlain_fieldComments first i j hi hj k p.2
    exact PlainComments.addEntry (t := r.addField _ _) hr (isPlain_mergeComments h.1 h.2)
  · exact hr

theorem PlainComments.composeMethods {r : Table} (hr : r.PlainComments) :
    (composeMethods first second i j r).PlainComments := by
  refine List.foldlRecOn (motive := PlainComments) _ _ hr fun r hr p _ => ?_
  split
  · rename_i k _
    have h := @isPlain_methodComments first i j hi hj k p.2
    exact PlainComments.addEntry (t := r.addMethod _ _) hr (isPlain_mergeComments h.1 h.2)
  · exact hr

end Plain

theorem PlainComments.compose {first second : Table} (h₁ : first.PlainComments)
    (h₂ : second.PlainComments) : (first.compose second).PlainComments := by
  have hpackages : (composePackages first second empty).PlainComments := by
    rw [PlainComments, composePackages_keeps _ _ _ Table.entries fun _ _ _ => rfl]
    exact fun e he => absurd he List.not_mem_nil
  show (Table.composeMethods first second first.bySource second.bySource _).PlainComments
  exact ((hpackages.composeClasses h₁.bySource h₂.bySource).composeFields h₁.bySource
    h₂.bySource).composeMethods h₁.bySource h₂.bySource

/-- Two tables whose comments are texts or missing can be composed. -/
theorem composed_of_plain {first second : Table} (h₁ : first.PlainComments)
    (h₂ : second.PlainComments) : composed first second = .ok (first.compose second) := by
  unfold composed
  rw [forM_checkComments h₁.bySource h₂.bySource]
  rfl

/-- A composition that is not refused is the composition. -/
theorem eq_compose_of_composed {first second t : Table} (h : composed first second = .ok t) :
    t = first.compose second := by
  unfold composed at h
  generalize (commentPairs first first.bySource second.bySource).forM
    (fun c => checkComments c.1 c.2) = check at h
  cases check with
  | error e => cases h
  | ok u => exact (Except.ok.inj h).symm

end Table

end Renaming
