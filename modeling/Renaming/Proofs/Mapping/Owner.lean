import Renaming.Mapping.ProGuard
import Renaming.Proofs.OrderedMap

/-!
# `Proofs/Mapping/Owner` — classes that are changed under their first names

Whatever a row says of a class is a change of the class under its first name, and the class is
mentioned if it was not there. Seen through `get?` and `keys`, a change touches this one class
(`get?_onOwner`) and never moves a class (`keys_onOwner`), so that

> two changes of one class are one change (`onOwner_onOwner`), and to rename the descriptors of a
> mapping is to rename those of each class (`get?_renameDescriptors`).
-/

set_option autoImplicit false

namespace Renaming

namespace OrderedMap

variable {κ α : Type} [DecidableEq κ]

theorem get?_modify (m : OrderedMap κ α) (k k' : κ) (f : α → α) :
    (m.modify k f).get? k' = if k' = k then (m.get? k).map f else m.get? k' := by
  unfold modify
  split
  · rename_i v h
    rw [h]
    exact get?_insert m k k' (f v)
  · rename_i h
    split
    · rename_i hk
      rw [hk, h]
      rfl
    · rfl

theorem keys_modify (m : OrderedMap κ α) (k : κ) (f : α → α) : (m.modify k f).keys = m.keys := by
  unfold modify
  cases h : m.get? k with
  | some v =>
    have hmem : k ∈ m.keys := mem_keys_iff.2 (by rw [h]; rfl)
    exact (keys_insert m k (f v)).trans (if_pos hmem)
  | none => rfl

end OrderedMap

def ClassRow.addRow (kind : MemberKind) (row : MemberRow) (c : ClassRow) : ClassRow :=
  match kind with
  | .field => { c with fields := c.fields ++ [row] }
  | .method => { c with methods := c.methods ++ [row] }

/-- The class with the classes of every descriptor renamed. -/
def ClassRow.renameRows (rename : Text → Text) (c : ClassRow) : ClassRow :=
  { c with
    fields := c.fields.map (Mapping.renameRow rename)
    methods := c.methods.map (Mapping.renameRow rename) }

namespace Mapping

variable (m : Mapping) (first : Text) (f : ClassRow → ClassRow)

/-! ## A change of one class -/

theorem get?_withOwner (first' : Text) :
    (m.withOwner first).classes.get? first' =
      if first' = first then some ((m.classes.get? first).getD (m.mentioned first))
      else m.classes.get? first' := by
  unfold withOwner OrderedMap.contains
  cases h : m.classes.get? first with
  | some c =>
    split
    · split
      · rename_i heq
        rw [heq, h]
        rfl
      · rfl
    · rename_i hnot
      exact absurd rfl hnot
  | none => exact OrderedMap.get?_insert m.classes first first' (m.mentioned first)

/-- **Only the class of this name is changed**, and it is there afterwards. -/
theorem get?_onOwner (first' : Text) :
    (m.onOwner first f).classes.get? first' =
      if first' = first then some (f ((m.classes.get? first).getD (m.mentioned first)))
      else m.classes.get? first' := by
  show ((m.withOwner first).classes.modify first f).get? first' = _
  rw [OrderedMap.get?_modify, get?_withOwner, get?_withOwner, if_pos rfl]
  split <;> rfl

/-- A class stays where it is, and a new one goes to the end. -/
theorem keys_onOwner : (m.onOwner first f).classes.keys =
    if first ∈ m.classes.keys then m.classes.keys else m.classes.keys ++ [first] := by
  show ((m.withOwner first).classes.modify first f).keys = _
  rw [OrderedMap.keys_modify]
  unfold withOwner OrderedMap.contains
  by_cases hmem : first ∈ m.classes.keys
  · rw [if_pos (OrderedMap.mem_keys_iff.1 hmem), if_pos hmem]
  · rw [if_neg fun h => hmem (OrderedMap.mem_keys_iff.2 h), if_neg hmem]
    exact (OrderedMap.keys_insert m.classes first (m.mentioned first)).trans (if_neg hmem)

/-- Nothing but the classes is changed. -/
theorem onOwner_eq : m.onOwner first f = { m with classes := (m.onOwner first f).classes } := by
  unfold onOwner withOwner
  split <;> rfl

theorem format_onOwner : (m.onOwner first f).format = m.format := by
  rw [onOwner_eq]

theorem packages_onOwner : (m.onOwner first f).packages = m.packages := by
  rw [onOwner_eq]

variable {m} in
/-- Mappings are equal if all but their classes is, and their classes are under their names. -/
theorem ext_classes {m' : Mapping} (h : m = { m' with classes := m.classes })
    (hkeys : m.classes.keys = m'.classes.keys)
    (hget : ∀ first, m.classes.get? first = m'.classes.get? first) : m = m' := by
  rw [h, OrderedMap.ext_get? hkeys hget]

theorem onOwner_onOwner (g : ClassRow → ClassRow) :
    (m.onOwner first f).onOwner first g = m.onOwner first fun c => g (f c) := by
  apply ext_classes
  · rw [onOwner_eq (m.onOwner first f), onOwner_eq m first f, onOwner_eq m first fun c => g (f c)]
  · rw [keys_onOwner, if_pos, keys_onOwner, keys_onOwner]
    rw [OrderedMap.mem_keys_iff, get?_onOwner, if_pos rfl]
    rfl
  · intro first'
    rw [get?_onOwner, get?_onOwner m first f, get?_onOwner m first f, get?_onOwner, if_pos rfl]
    split <;> rfl

/-- Any number of changes of one class are one change. -/
theorem foldl_onOwner_onOwner {α : Type} (change : α → ClassRow → ClassRow) (xs : List α) :
    xs.foldl (fun m x => m.onOwner first (change x)) (m.onOwner first f) =
      m.onOwner first fun c => xs.foldl (fun c x => change x c) (f c) := by
  induction xs generalizing f with
  | nil => rfl
  | cons x xs ih =>
    rw [List.foldl_cons, onOwner_onOwner, ih]
    rfl

/-! ## Classes that are new -/

variable {m first} in
/-- A change of a class that is not there adds the class. -/
theorem onOwner_of_notMem (h : first ∉ m.classes.keys) :
    m.onOwner first f = { m with classes := m.classes.insert first (f (m.mentioned first)) } := by
  have hnone := OrderedMap.get?_eq_none_iff.2 h
  apply ext_classes
  · rw [onOwner_eq]
  · rw [keys_onOwner, if_neg h]
    exact ((OrderedMap.keys_insert m.classes first _).trans (if_neg h)).symm
  · intro first'
    rw [get?_onOwner, hnone]
    exact (OrderedMap.get?_insert m.classes first first' _).symm

variable {m} in
/-- Classes that are added one after the other, whatever adds them. -/
theorem foldl_onOwner_eq {classes : List (Text × ClassRow)}
    (hnodup : ((m.classes.toList ++ classes).map Prod.fst).Nodup)
    {change : Text × ClassRow → ClassRow → ClassRow}
    (hchange : ∀ p ∈ classes, change p (m.mentioned p.1) = p.2) :
    classes.foldl (fun m p => m.onOwner p.1 (change p)) m =
      { m with classes := m.classes.insertAll classes } := by
  induction classes generalizing m with
  | nil => rfl
  | cons p classes ih =>
    rw [List.forall_mem_cons] at hchange
    have hnew : p.1 ∉ m.classes.keys := by
      intro hmem
      rw [List.map_append, List.nodup_append] at hnodup
      exact hnodup.2.2 p.1 hmem p.1 List.mem_cons_self rfl
    have hlist : (m.classes.insert p.1 p.2).toList = m.classes.toList ++ [p] :=
      OrderedMap.put_of_notMem hnew p.2
    rw [List.foldl_cons, onOwner_of_notMem _ hnew, hchange.1]
    apply ih (m := { m with classes := m.classes.insert p.1 p.2 }) _ hchange.2
    rw [hlist, List.append_assoc]
    exact hnodup

/-! ## Renaming descriptors -/

section Descriptors

variable (rename : Text → Text)

/-- Classes that are there, changed one after the other. -/
theorem foldl_onOwner {firsts : List Text} (hnodup : firsts.Nodup)
    (hmem : ∀ first ∈ firsts, first ∈ m.classes.keys) :
    (firsts.foldl (fun m first => m.onOwner first f) m).classes.keys = m.classes.keys ∧
      ∀ first, (firsts.foldl (fun m first => m.onOwner first f) m).classes.get? first =
        if first ∈ firsts then (m.classes.get? first).map f else m.classes.get? first := by
  induction firsts generalizing m with
  | nil => exact ⟨rfl, fun _ => rfl⟩
  | cons first firsts ih =>
    rw [List.nodup_cons] at hnodup
    rw [List.forall_mem_cons] at hmem
    have hkeys : (m.onOwner first f).classes.keys = m.classes.keys := by
      rw [keys_onOwner, if_pos hmem.1]
    obtain ⟨hkeys', hget⟩ := ih (m.onOwner first f) hnodup.2 (by rw [hkeys]; exact hmem.2)
    refine ⟨hkeys'.trans hkeys, fun first' => ?_⟩
    obtain ⟨c, hc⟩ := Option.isSome_iff_exists.1 (OrderedMap.mem_keys_iff.1 hmem.1)
    rw [List.foldl_cons, hget, get?_onOwner]
    by_cases heq : first' = first
    · rw [heq, if_neg hnodup.1, if_pos rfl, if_pos List.mem_cons_self, hc]
      rfl
    · simp only [heq, if_false, List.mem_cons, false_or]

theorem keys_renameDescriptors : (m.renameDescriptors rename).classes.keys = m.classes.keys :=
  (foldl_onOwner m (ClassRow.renameRows rename) m.classes.nodup_keys fun _ h => h).1

/-- **Each class is renamed for itself.** -/
theorem get?_renameDescriptors (first : Text) :
    (m.renameDescriptors rename).classes.get? first =
      (m.classes.get? first).map (ClassRow.renameRows rename) := by
  have hget := (foldl_onOwner m (ClassRow.renameRows rename) m.classes.nodup_keys fun _ h => h).2
  refine (hget first).trans ?_
  split
  · rfl
  · rename_i hnot
    rw [OrderedMap.get?_eq_none_iff.2 hnot]
    rfl

theorem renameDescriptors_eq :
    m.renameDescriptors rename = { m with classes := (m.renameDescriptors rename).classes } := by
  apply List.foldlRecOn (motive := fun m' : Mapping => m' = { m with classes := m'.classes })
    m.classes.keys
  · rfl
  · intro m' hm' first _
    refine (onOwner_eq m' first _).trans ?_
    rw [hm']

/-- A class may be changed first and renamed then, or the other way round. -/
theorem renameDescriptors_onOwner {g : ClassRow → ClassRow}
    (h : ∀ c : ClassRow, (f c).renameRows rename = g (c.renameRows rename)) :
    (m.onOwner first f).renameDescriptors rename = (m.renameDescriptors rename).onOwner first g := by
  apply ext_classes
  · rw [renameDescriptors_eq, onOwner_eq, onOwner_eq (m.renameDescriptors rename),
      renameDescriptors_eq m]
  · rw [keys_renameDescriptors, keys_onOwner, keys_onOwner, keys_renameDescriptors]
  · intro first'
    have hmentioned : (m.mentioned first).renameRows rename =
        (m.renameDescriptors rename).mentioned first := by
      rw [renameDescriptors_eq]
      rfl
    rw [get?_renameDescriptors, get?_onOwner, get?_onOwner, get?_renameDescriptors,
      get?_renameDescriptors, ← hmentioned]
    split
    · rw [Option.map_some, h]
      cases m.classes.get? first <;> rfl
    · rfl

end Descriptors

end Mapping

end Renaming
