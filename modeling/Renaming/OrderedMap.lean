/-!
# `OrderedMap` — maps that remember the order of arrival

Renames are kept in maps whose keys stay in the order in which they first arrived: writing to a
key that is present changes its value and moves nothing. The order is part of the behaviour,
because it decides which of two symbols wins when both end up under one key after a reversal or a
composition. That no key occurs twice is a field of the type, so no operation has to check it.

Everything is seen through `get?` and `keys`; the lemmas below say what each operation does to
these two.
-/

set_option autoImplicit false

namespace Renaming

/-- A finite map with its keys in the order of their first arrival. -/
structure OrderedMap (κ α : Type) where
  /-- The pairs in order. -/
  toList : List (κ × α)
  /-- No key occurs twice. -/
  nodup_keys : (toList.map Prod.fst).Nodup

namespace OrderedMap

variable {κ α : Type}

def empty : OrderedMap κ α := ⟨[], List.nodup_nil⟩

instance : EmptyCollection (OrderedMap κ α) := ⟨empty⟩

instance : Inhabited (OrderedMap κ α) := ⟨empty⟩

def keys (m : OrderedMap κ α) : List κ := m.toList.map Prod.fst

def values (m : OrderedMap κ α) : List α := m.toList.map Prod.snd

def size (m : OrderedMap κ α) : Nat := m.toList.length

section Keyed

variable [DecidableEq κ]

def find? (k : κ) : List (κ × α) → Option α
  | [] => none
  | p :: r => if p.1 = k then some p.2 else find? k r

/-- The pairs with `v` under `k`: in place when `k` is there, and otherwise at the end. -/
def put (k : κ) (v : α) : List (κ × α) → List (κ × α)
  | [] => [(k, v)]
  | p :: r => if p.1 = k then (k, v) :: r else p :: put k v r

theorem map_fst_put (k : κ) (v : α) (l : List (κ × α)) :
    (put k v l).map Prod.fst =
      if k ∈ l.map Prod.fst then l.map Prod.fst else l.map Prod.fst ++ [k] := by
  induction l with
  | nil => simp [put]
  | cons p r ih =>
    by_cases h : p.1 = k
    · subst h; simp [put]
    · have hk : ¬ k = p.1 := fun e => h e.symm
      simp only [put, if_neg h, List.map_cons, ih, List.mem_cons, hk, false_or]
      split <;> simp

theorem nodup_put (k : κ) (v : α) {l : List (κ × α)} (h : (l.map Prod.fst).Nodup) :
    ((put k v l).map Prod.fst).Nodup := by
  rw [map_fst_put]
  split
  · exact h
  · rename_i hn
    rw [List.nodup_append]
    refine ⟨h, by simp, ?_⟩
    intro a ha b hb
    rw [List.mem_singleton] at hb
    subst hb
    exact fun e => hn (e ▸ ha)

theorem find?_put_self (k : κ) (v : α) (l : List (κ × α)) : find? k (put k v l) = some v := by
  induction l with
  | nil => simp [put, find?]
  | cons p r ih =>
    by_cases h : p.1 = k
    · simp [put, find?, h]
    · simp [put, find?, h, ih]

theorem find?_put_of_ne {k k' : κ} (h : k' ≠ k) (v : α) (l : List (κ × α)) :
    find? k' (put k v l) = find? k' l := by
  induction l with
  | nil => simp [put, find?, Ne.symm h]
  | cons p r ih =>
    by_cases hp : p.1 = k
    · have : ¬ k = k' := fun e => h e.symm
      simp [put, find?, hp, this]
    · rw [put, if_neg hp, find?, find?, ih]

/-- The pairs without the first one with key `k`. -/
def remove (k : κ) : List (κ × α) → List (κ × α)
  | [] => []
  | p :: r => if p.1 = k then r else p :: remove k r

theorem remove_sublist (k : κ) (l : List (κ × α)) : (remove k l).Sublist l := by
  induction l with
  | nil => exact List.Sublist.refl _
  | cons p r ih =>
    rw [remove]
    split
    · exact List.sublist_cons_self p r
    · exact ih.cons_cons p

theorem find?_remove_of_ne {k k' : κ} (h : k' ≠ k) (l : List (κ × α)) :
    find? k' (remove k l) = find? k' l := by
  induction l with
  | nil => rfl
  | cons p r ih =>
    by_cases hp : p.1 = k
    · have : ¬ p.1 = k' := fun e => h (e ▸ hp)
      rw [remove, if_pos hp, find?, if_neg this]
    · rw [remove, if_neg hp, find?, find?, ih]

theorem find?_eq_none_iff {k : κ} {l : List (κ × α)} : find? k l = none ↔ k ∉ l.map Prod.fst := by
  induction l with
  | nil => simp [find?]
  | cons p r ih =>
    by_cases h : p.1 = k
    · simp [find?, h]
    · have : ¬ k = p.1 := fun e => h e.symm
      simp only [find?, if_neg h, ih, List.map_cons, List.mem_cons, this, false_or]

theorem find?_eq_some_iff {k : κ} {v : α} {l : List (κ × α)} (h : (l.map Prod.fst).Nodup) :
    find? k l = some v ↔ (k, v) ∈ l := by
  induction l with
  | nil => simp [find?]
  | cons p r ih =>
    rw [List.map_cons, List.nodup_cons] at h
    by_cases hp : p.1 = k
    · subst hp
      simp only [find?, if_pos, Option.some.injEq, List.mem_cons]
      constructor
      · rintro rfl; exact Or.inl rfl
      · rintro (hv | hv)
        · rw [← hv]
        · exact absurd (List.mem_map.2 ⟨_, hv, rfl⟩) h.1
    · simp only [find?, if_neg hp, ih h.2, List.mem_cons]
      constructor
      · exact Or.inr
      · rintro (hv | hv)
        · exact absurd (by rw [← hv]) hp
        · exact hv

def get? (m : OrderedMap κ α) (k : κ) : Option α := find? k m.toList

def getD (m : OrderedMap κ α) (k : κ) (d : α) : α := (m.get? k).getD d

def contains (m : OrderedMap κ α) (k : κ) : Bool := (m.get? k).isSome

/-- The map with `v` under `k`. A key that is there keeps its place, and a new one is the last. -/
def insert (m : OrderedMap κ α) (k : κ) (v : α) : OrderedMap κ α :=
  ⟨put k v m.toList, nodup_put k v m.nodup_keys⟩

def erase (m : OrderedMap κ α) (k : κ) : OrderedMap κ α :=
  ⟨remove k m.toList, ((remove_sublist k m.toList).map Prod.fst).nodup m.nodup_keys⟩

/-- The map of a list of pairs. A later pair overwrites an earlier one with the same key. -/
def ofList (l : List (κ × α)) : OrderedMap κ α := l.foldl (fun m p => m.insert p.1 p.2) empty

/-- The map with the value under `k`, if there is one, changed by `f`. -/
def modify (m : OrderedMap κ α) (k : κ) (f : α → α) : OrderedMap κ α :=
  match m.get? k with
  | some v => m.insert k (f v)
  | none => m

/-- Whether both maps have the same keys with values that `eq` accepts, in any order. -/
def sameBy (eq : α → α → Bool) (m n : OrderedMap κ α) : Bool :=
  m.size == n.size && m.toList.all fun p => (n.get? p.1).any (eq p.2)

@[simp] theorem get?_empty (k : κ) : (empty : OrderedMap κ α).get? k = none := rfl

@[simp] theorem get?_insert_self (m : OrderedMap κ α) (k : κ) (v : α) :
    (m.insert k v).get? k = some v := find?_put_self k v m.toList

theorem get?_insert_of_ne (m : OrderedMap κ α) {k k' : κ} (h : k' ≠ k) (v : α) :
    (m.insert k v).get? k' = m.get? k' := find?_put_of_ne h v m.toList

theorem get?_insert (m : OrderedMap κ α) (k k' : κ) (v : α) :
    (m.insert k v).get? k' = if k' = k then some v else m.get? k' := by
  by_cases h : k' = k
  · subst h; simp
  · rw [get?_insert_of_ne m h, if_neg h]

/-- A new key goes to the end, and a present one stays where it is. -/
theorem keys_insert (m : OrderedMap κ α) (k : κ) (v : α) :
    (m.insert k v).keys = if k ∈ m.keys then m.keys else m.keys ++ [k] :=
  map_fst_put k v m.toList

theorem get?_erase_of_ne (m : OrderedMap κ α) {k k' : κ} (h : k' ≠ k) :
    (m.erase k).get? k' = m.get? k' := find?_remove_of_ne h m.toList

theorem get?_eq_none_iff {m : OrderedMap κ α} {k : κ} : m.get? k = none ↔ k ∉ m.keys :=
  find?_eq_none_iff

theorem get?_eq_some_iff {m : OrderedMap κ α} {k : κ} {v : α} :
    m.get? k = some v ↔ (k, v) ∈ m.toList := find?_eq_some_iff m.nodup_keys

/-- A key that was erased has no value. -/
@[simp] theorem get?_erase_self (m : OrderedMap κ α) (k : κ) : (m.erase k).get? k = none := by
  have go : ∀ l : List (κ × α), (l.map Prod.fst).Nodup → find? k (remove k l) = none := by
    intro l
    induction l with
    | nil => intro _; rfl
    | cons p r ih =>
      intro h
      rw [List.map_cons, List.nodup_cons] at h
      by_cases hp : p.1 = k
      · rw [remove, if_pos hp, find?_eq_none_iff]
        exact hp ▸ h.1
      · rw [remove, if_neg hp, find?, if_neg hp, ih h.2]
  exact go m.toList m.nodup_keys

end Keyed

end OrderedMap

end Renaming
