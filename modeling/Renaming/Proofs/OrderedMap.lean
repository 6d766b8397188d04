import Mathlib.Data.List.Induction
import Mathlib.Data.List.Nodup
import Renaming.OrderedMap

/-!
# `Proofs/OrderedMap` — maps that are filled from a list

Every map of a table is the work of one loop that writes pairs into it, one after the other, and a
later pair overwrites an earlier one. `insertAll` is this loop. Two facts about it are enough for
everything that is proved about tables:

> where no key comes twice, the map is the list (`toList_ofList`);
> where a key that comes twice comes with the same value, the map looks up what is in the list
> (`get?_ofList_iff`).

The second asks for less and forgets the order, which is what a comparison of two maps needs that
were filled by different loops.
-/

set_option autoImplicit false

namespace Renaming

namespace OrderedMap

variable {κ α : Type}

theorem ext_toList {m n : OrderedMap κ α} (h : m.toList = n.toList) : m = n := by
  cases m
  cases n
  cases h
  rfl

/-- No key comes with two values. -/
def Functional (l : List (κ × α)) : Prop := ∀ p ∈ l, ∀ q ∈ l, p.1 = q.1 → p.2 = q.2

theorem functional_of_nodup {l : List (κ × α)} (h : (l.map Prod.fst).Nodup) : Functional l := by
  intro p hp q hq hkey
  rw [List.inj_on_of_nodup_map h hp hq hkey]

/-- Values with keys of their own. -/
theorem functional_map {β : Type} {f : β → κ × α} {l : List β}
    (h : ∀ x ∈ l, ∀ y ∈ l, (f x).1 = (f y).1 → (f x).2 = (f y).2) : Functional (l.map f) := by
  intro p hp q hq
  obtain ⟨x, hx, rfl⟩ := List.mem_map.1 hp
  obtain ⟨y, hy, rfl⟩ := List.mem_map.1 hq
  exact h x hx y hy

/-- Maps with the same keys are of one size. -/
theorem size_eq_of_keys {m n : OrderedMap κ α} (h : m.keys = n.keys) : m.size = n.size := by
  unfold OrderedMap.size
  simpa only [OrderedMap.keys, List.length_map] using congrArg List.length h

variable [DecidableEq κ]

/-! ## Keys and values -/

theorem mem_values_of_get? {m : OrderedMap κ α} {k : κ} {v : α} (h : m.get? k = some v) :
    v ∈ m.values := List.mem_map.2 ⟨(k, v), get?_eq_some_iff.1 h, rfl⟩

/-- Two maps with the same keys in order and the same values under them are one. -/
theorem ext_get? {m n : OrderedMap κ α} (hkeys : m.keys = n.keys)
    (h : ∀ k, m.get? k = n.get? k) : m = n := by
  apply ext_toList
  apply List.ext_get
  · have := congrArg List.length hkeys
    rwa [keys, keys, List.length_map, List.length_map] at this
  · intro i hm hn
    have hmem := List.get_mem m.toList ⟨i, hm⟩
    have hkey : (m.toList.get ⟨i, hm⟩).1 = (n.toList.get ⟨i, hn⟩).1 := by
      have hi := congrArg (fun l : List κ => l[i]?) hkeys
      simpa [keys, hm, hn] using hi
    have hvalue := get?_eq_some_iff.2 hmem
    rw [h, hkey, get?_eq_some_iff.2 (List.get_mem n.toList ⟨i, hn⟩)] at hvalue
    exact Prod.ext hkey (Option.some.inj hvalue).symm

theorem mem_keys_iff {m : OrderedMap κ α} {k : κ} : k ∈ m.keys ↔ (m.get? k).isSome := by
  rw [← not_iff_not, ← get?_eq_none_iff, Option.not_isSome_iff_eq_none]

theorem mem_values_iff {m : OrderedMap κ α} {v : α} : v ∈ m.values ↔ ∃ k, m.get? k = some v := by
  constructor
  · intro h
    obtain ⟨⟨k, v⟩, hmem, rfl⟩ := List.mem_map.1 h
    exact ⟨k, get?_eq_some_iff.2 hmem⟩
  · rintro ⟨k, h⟩
    exact mem_values_of_get? h

theorem put_of_find? {k : κ} {v : α} {l : List (κ × α)} (h : find? k l = some v) :
    put k v l = l := by
  induction l with
  | nil => cases h
  | cons p r ih =>
    rw [find?] at h
    rw [put]
    split
    · rename_i hk
      rw [if_pos hk] at h
      rw [← hk, ← Option.some.inj h]
    · rename_i hk
      rw [if_neg hk] at h
      rw [ih h]

/-- Writing what is there changes nothing. -/
theorem insert_of_get? {m : OrderedMap κ α} {k : κ} {v : α} (h : m.get? k = some v) :
    m.insert k v = m := ext_toList (put_of_find? h)

/-! ## Pairs written one after the other -/

/-- The map with pairs written into it one after the other. -/
def insertAll (m : OrderedMap κ α) (l : List (κ × α)) : OrderedMap κ α :=
  l.foldl (fun m p => m.insert p.1 p.2) m

theorem ofList_eq (l : List (κ × α)) : ofList l = empty.insertAll l := rfl

theorem insertAll_append (m : OrderedMap κ α) (l l' : List (κ × α)) :
    m.insertAll (l ++ l') = (m.insertAll l).insertAll l' := List.foldl_append

/-! ## Where no key comes twice -/

theorem put_of_notMem {k : κ} {l : List (κ × α)} (h : k ∉ l.map Prod.fst) (v : α) :
    put k v l = l ++ [(k, v)] := by
  induction l with
  | nil => rfl
  | cons p r ih =>
    rw [List.map_cons, List.mem_cons, not_or] at h
    rw [put, if_neg (Ne.symm h.1), ih h.2]
    rfl

theorem toList_insertAll {m : OrderedMap κ α} {l : List (κ × α)}
    (h : ((m.toList ++ l).map Prod.fst).Nodup) : (m.insertAll l).toList = m.toList ++ l := by
  induction l generalizing m with
  | nil => exact (List.append_nil _).symm
  | cons p l ih =>
    have hnew : p.1 ∉ m.toList.map Prod.fst := by
      intro hmem
      rw [List.map_append, List.nodup_append] at h
      exact h.2.2 p.1 hmem p.1 List.mem_cons_self rfl
    have hput : (m.insert p.1 p.2).toList = m.toList ++ [p] := put_of_notMem hnew p.2
    have hsplit : m.toList ++ p :: l = (m.insert p.1 p.2).toList ++ l := by
      rw [hput, List.append_assoc]
      rfl
    rw [hsplit]
    apply ih
    rw [← hsplit]
    exact h

theorem toList_ofList {l : List (κ × α)} (h : (l.map Prod.fst).Nodup) : (ofList l).toList = l :=
  toList_insertAll (m := empty) h

/-- A map is what is made of its pairs. -/
theorem ofList_toList (m : OrderedMap κ α) : ofList m.toList = m :=
  ext_toList (toList_ofList m.nodup_keys)

/-! ## What the map looks up -/

theorem mem_of_get?_ofList {l : List (κ × α)} {k : κ} {v : α} (h : (ofList l).get? k = some v) :
    (k, v) ∈ l := by
  induction l using List.reverseRecOn generalizing v with
  | nil => cases h
  | append_singleton l p ih =>
    rw [ofList_eq, insertAll_append, ← ofList_eq] at h
    change ((ofList l).insert p.1 p.2).get? k = some v at h
    rw [get?_insert] at h
    split at h
    · rename_i hk
      cases h
      rw [hk]
      exact List.mem_append_right _ List.mem_cons_self
    · exact List.mem_append_left _ (ih h)

theorem isSome_get?_ofList {l : List (κ × α)} {p : κ × α} (h : p ∈ l) :
    ((ofList l).get? p.1).isSome := by
  induction l using List.reverseRecOn with
  | nil => cases h
  | append_singleton l q ih =>
    rw [ofList_eq, insertAll_append, ← ofList_eq]
    change (((ofList l).insert q.1 q.2).get? p.1).isSome
    rw [get?_insert]
    split
    · rfl
    · rename_i hne
      rcases List.mem_append.1 h with h | h
      · exact ih h
      · rw [List.mem_singleton.1 h] at hne
        exact absurd rfl hne

/-- A value under whose key no other is written. -/
theorem get?_ofList_of_mem {l : List (κ × α)} {p : κ × α} (hp : p ∈ l)
    (h : ∀ q ∈ l, q.1 = p.1 → q.2 = p.2) : (ofList l).get? p.1 = some p.2 := by
  obtain ⟨v, hv⟩ := Option.isSome_iff_exists.1 (isSome_get?_ofList hp)
  rw [hv, ← h _ (mem_of_get?_ofList hv) rfl]

theorem get?_ofList_iff {l : List (κ × α)} (hl : Functional l) {k : κ} {v : α} :
    (ofList l).get? k = some v ↔ (k, v) ∈ l := by
  constructor
  · exact mem_of_get?_ofList
  · intro h
    exact get?_ofList_of_mem h fun q hq hkey => hl q hq _ h hkey

/-- What is there is what was written last. -/
theorem get?_ofList_eq_some_iff {l : List (κ × α)} {k : κ} {v : α} :
    (ofList l).get? k = some v ↔
      ∃ before after, l = before ++ (k, v) :: after ∧ ∀ p ∈ after, p.1 ≠ k := by
  induction l using List.reverseRecOn with
  | nil => exact ⟨nofun, by rintro ⟨before, after, h, -⟩; simp at h⟩
  | append_singleton l p ih =>
    rw [ofList_eq, insertAll_append, ← ofList_eq]
    change ((ofList l).insert p.1 p.2).get? k = some v ↔ _
    rw [get?_insert]
    constructor
    · split
      · rename_i hk
        intro h
        cases h
        exact ⟨l, [], by rw [hk], by simp⟩
      · rename_i hk
        intro h
        obtain ⟨before, after, rfl, hafter⟩ := ih.1 h
        refine ⟨before, after ++ [p], by simp, ?_⟩
        intro q hq
        rcases List.mem_append.1 hq with hq | hq
        · exact hafter q hq
        · rw [List.mem_singleton.1 hq]
          exact Ne.symm hk
    · rintro ⟨before, after, hsplit, hafter⟩
      -- either the last pair is the one in question, or it stands behind it
      rcases List.eq_nil_or_concat after with rfl | ⟨after, q, rfl⟩
      · obtain ⟨rfl, hp⟩ := List.append_inj' hsplit rfl
        cases hp
        rw [if_pos rfl]
      · have hsplit' : l ++ [p] = (before ++ (k, v) :: after) ++ [q] := by simpa using hsplit
        obtain ⟨rfl, hp⟩ := List.append_inj' hsplit' rfl
        cases hp
        rw [if_neg (Ne.symm (hafter p (by simp)))]
        exact ih.2 ⟨before, after, rfl, fun q hq => hafter q (by simp [hq])⟩

theorem get?_insertAll (m : OrderedMap κ α) (l : List (κ × α)) (k : κ) :
    (m.insertAll l).get? k = ((ofList l).get? k).or (m.get? k) := by
  induction l using List.reverseRecOn with
  | nil => rfl
  | append_singleton l p ih =>
    rw [ofList_eq, insertAll_append, insertAll_append, ← ofList_eq]
    change ((m.insertAll l).insert p.1 p.2).get? k = (((ofList l).insert p.1 p.2).get? k).or _
    rw [get?_insert, get?_insert, ih]
    split <;> rfl

/-- What stands under a key is decided by the pairs with that key. -/
theorem get?_ofList_filter (l : List (κ × α)) (k : κ) :
    (ofList (l.filter (·.1 = k))).get? k = (ofList l).get? k := by
  induction l using List.reverseRecOn with
  | nil => rfl
  | append_singleton l p ih =>
    rw [List.filter_append, ofList_eq, ofList_eq, insertAll_append, insertAll_append, ← ofList_eq,
      ← ofList_eq]
    by_cases hk : p.1 = k
    · rw [List.filter_cons_of_pos (by simpa using hk), List.filter_nil]
      change ((ofList _).insert p.1 p.2).get? k = ((ofList l).insert p.1 p.2).get? k
      rw [get?_insert, get?_insert, if_pos hk.symm, if_pos hk.symm]
    · rw [List.filter_cons_of_neg (by simpa using hk), List.filter_nil]
      change (ofList _).get? k = ((ofList l).insert p.1 p.2).get? k
      rw [get?_insert, if_neg (Ne.symm hk), ih]

/-- What is written later counts. -/
theorem exists_get?_ofList_append (l : List (κ × α)) {l' : List (κ × α)} {p : κ × α} (h : p ∈ l') :
    ∃ v, (p.1, v) ∈ l' ∧ (ofList (l ++ l')).get? p.1 = some v := by
  obtain ⟨v, hv⟩ := Option.isSome_iff_exists.1 (isSome_get?_ofList h)
  refine ⟨v, mem_of_get?_ofList hv, ?_⟩
  rw [ofList_eq, insertAll_append, get?_insertAll, hv, Option.some_or]

/-! ## Where the keys stand -/

theorem keys_isPrefix_insertAll (m : OrderedMap κ α) (l : List (κ × α)) :
    m.keys <+: (m.insertAll l).keys := by
  induction l generalizing m with
  | nil => exact List.prefix_refl _
  | cons p l ih =>
    apply List.IsPrefix.trans _ (ih (m.insert p.1 p.2))
    rw [keys_insert]
    split
    · exact List.prefix_refl _
    · exact List.prefix_append _ _

/-- Writing changes nothing just when all that it leaves was there. -/
theorem insertAll_eq_self_iff {m : OrderedMap κ α} {l : List (κ × α)} :
    m.insertAll l = m ↔ ∀ k v, (ofList l).get? k = some v → m.get? k = some v := by
  constructor
  · intro h k v hv
    rw [← h, get?_insertAll, hv]
    rfl
  · intro h
    have hget : ∀ k, (m.insertAll l).get? k = m.get? k := by
      intro k
      rw [get?_insertAll]
      cases hv : (ofList l).get? k with
      | none => rfl
      | some v => exact (h k v hv).symm
    -- no key is new, so none stands behind those that were there
    obtain ⟨rest, hrest⟩ := keys_isPrefix_insertAll m l
    refine ext_get? ?_ hget
    cases rest with
    | nil => rw [← hrest, List.append_nil]
    | cons k rest =>
      have hmem : k ∈ (m.insertAll l).keys := by simp [← hrest]
      have hnodup : (m.insertAll l).keys.Nodup := (m.insertAll l).nodup_keys
      rw [mem_keys_iff, hget, ← mem_keys_iff] at hmem
      rw [← hrest, List.nodup_append] at hnodup
      exact absurd rfl (hnodup.2.2 k hmem k List.mem_cons_self)

/-- Keys that are there stay in front, and behind them stands only what is written. -/
theorem exists_toList_insertAll (m : OrderedMap κ α) (l : List (κ × α)) :
    ∃ old new, (m.insertAll l).toList = old ++ new ∧ old.map Prod.fst = m.keys ∧
      ∀ p ∈ new, p ∈ l := by
  obtain ⟨rest, hrest⟩ := keys_isPrefix_insertAll m l
  obtain ⟨old, new, hsplit, hold, hnew⟩ := List.map_eq_append_iff.1 hrest.symm
  refine ⟨old, new, hsplit, hold, ?_⟩
  rintro ⟨k, v⟩ hp
  have hget : (m.insertAll l).get? k = some v := by
    rw [get?_eq_some_iff, hsplit]
    exact List.mem_append_right _ hp
  have hnodup := (m.insertAll l).nodup_keys
  rw [hsplit, List.map_append, List.nodup_append] at hnodup
  have hnone : m.get? k = none := by
    rw [get?_eq_none_iff, ← hold]
    intro hk
    exact hnodup.2.2 k hk k (List.mem_map_of_mem hp) rfl
  rw [get?_insertAll, hnone, Option.or_none] at hget
  exact mem_of_get?_ofList hget

/-- A map with its values changed. -/
theorem get?_ofList_map {β : Type} (m : OrderedMap κ α) (f : α → β) (k : κ) :
    (ofList (m.toList.map fun p => (p.1, f p.2))).get? k = (m.get? k).map f := by
  have hkeys : ((m.toList.map fun p => (p.1, f p.2)).map Prod.fst).Nodup := by
    rw [List.map_map]
    exact m.nodup_keys
  apply Option.ext
  intro v
  rw [get?_ofList_iff (functional_of_nodup hkeys), List.mem_map, Option.map_eq_some_iff]
  constructor
  · rintro ⟨p, hp, hpair⟩
    cases hpair
    exact ⟨p.2, get?_eq_some_iff.2 hp, rfl⟩
  · rintro ⟨w, hw, rfl⟩
    exact ⟨(k, w), get?_eq_some_iff.1 hw, rfl⟩

end OrderedMap

end Renaming
