import Mathlib.Data.List.TakeWhile
import Renaming.Symbol.Key

/-!
# `Proofs/Symbol/Key` — keys that are read as they were written

A key is written without any marking of its parts, so reading it gives the member back only where
the two cuts, at the first blank and at the last slash before it, fall between the parts. That is so
for every member whose owner has no blank and whose name has neither a blank nor a slash; the
descriptor may hold both. Conversely every key that can be read is the key of such a member
(`parse_eq_ok_iff`), so a key has one member only, and whether it can be read shows in the text in
front of its first blank (`HasParts`).
-/

set_option autoImplicit false

namespace Renaming

namespace MemberKey

/-- Owner and name are there and do not hold the marks that separate them from what follows. -/
structure IsReadable (k : MemberKey) : Prop where
  owner_ne : k.owner ≠ []
  owner : ' ' ∉ k.owner
  name_ne : k.name ≠ []
  name : ' ' ∉ k.name ∧ '/' ∉ k.name

theorem cutLast_bareKey {owner name : Text} (h : '/' ∉ name) :
    Text.cutLast '/' (bareKey owner name) = some (owner, name) :=
  Text.cutLast_eq_some_iff.2 ⟨rfl, h⟩

theorem blank_notMem_bareKey {owner name : Text} (ho : ' ' ∉ owner) (hn : ' ' ∉ name) :
    ' ' ∉ bareKey owner name := by
  intro h
  rcases List.mem_append.1 h with h | h
  · exact ho h
  · rcases List.mem_cons.1 h with h | h
    · exact absurd h (by decide)
    · exact hn h

theorem cut_qualifiedKey {owner name : Text} (ho : ' ' ∉ owner) (hn : ' ' ∉ name) (d : Text) :
    Text.cut ' ' (qualifiedKey owner name d) = some (bareKey owner name, d) :=
  Text.cut_eq_some_iff.2 ⟨rfl, blank_notMem_bareKey ho hn⟩

theorem parseHead_bareKey {k : MemberKey} (h : k.IsReadable) (key : Text) (d : Option Text) :
    parseHead key (bareKey k.owner k.name) d = .ok ⟨k.owner, k.name, d⟩ := by
  have hempty : (k.owner.isEmpty || k.name.isEmpty) = false := by
    rw [Bool.or_eq_false_iff, List.isEmpty_eq_false_iff, List.isEmpty_eq_false_iff]
    exact ⟨h.owner_ne, h.name_ne⟩
  rw [parseHead, cutLast_bareKey h.name.2]
  dsimp only
  rw [hempty]
  rfl

/-- **Reading gives back what was written.** -/
theorem parse_format {k : MemberKey} (h : k.IsReadable) : parse k.format = .ok k := by
  obtain ⟨owner, name, descriptor⟩ := k
  cases descriptor with
  | none =>
    have hcut : Text.cut ' ' (bareKey owner name) = none :=
      Text.cut_eq_none_iff.2 (blank_notMem_bareKey h.owner h.name.1)
    show parse (bareKey owner name) = _
    rw [parse, hcut]
    exact parseHead_bareKey h _ none
  | some d =>
    show parse (qualifiedKey owner name d) = _
    rw [parse, cut_qualifiedKey h.owner h.name.1 d]
    exact parseHead_bareKey h _ (some d)

theorem parseMethod_eq_ok_iff {key : Text} {k : MemberKey} :
    parseMethod key = .ok k ↔ parse key = .ok k ∧ ∃ d, k.descriptor = some d ∧ d ≠ [] := by
  unfold parseMethod
  cases hp : parse key with
  | error e =>
    constructor
    · intro h
      cases h
    · rintro ⟨h, -⟩
      cases h
  | ok k' =>
    dsimp only [bind, Except.bind]
    rw [Except.ok.injEq]
    constructor
    · intro h
      split at h
      · rename_i c d hd
        cases h
        exact ⟨rfl, c :: d, hd, List.cons_ne_nil c d⟩
      · cases h
    · rintro ⟨rfl, d, hd, hne⟩
      cases d with
      | nil => exact absurd rfl hne
      | cons c d => rw [hd]

theorem parse_of_parseMethod {key : Text} {k : MemberKey} (h : parseMethod key = .ok k) :
    parse key = .ok k := (parseMethod_eq_ok_iff.1 h).1

theorem parseHead_eq_ok {key head : Text} {d : Option Text} {k : MemberKey}
    (h : parseHead key head d = .ok k) :
    head = bareKey k.owner k.name ∧ k.descriptor = d := by
  unfold parseHead at h
  split at h
  · rename_i owner name hcut
    split at h
    · cases h
    · obtain rfl := Except.ok.inj h
      exact ⟨(Text.cutLast_eq_some_iff.1 hcut).1, rfl⟩
  · cases h

/-- A key that can be read is the key of what was read. -/
theorem format_of_parse {key : Text} {k : MemberKey} (h : parse key = .ok k) :
    k.format = key := by
  unfold parse at h
  split at h
  · rename_i head d hcut
    obtain ⟨hhead, hd⟩ := parseHead_eq_ok h
    rw [format, hd, (Text.cut_eq_some_iff.1 hcut).1, hhead]
    rfl
  · obtain ⟨hhead, hd⟩ := parseHead_eq_ok h
    rw [format, hd, ← hhead]

/-- The cut at the first blank leaves none in the owner and the name. -/
theorem blank_notMem_of_parse {key : Text} {k : MemberKey} (h : parse key = .ok k) :
    ' ' ∉ bareKey k.owner k.name := by
  unfold parse at h
  split at h
  · rename_i head d hcut
    rw [← (parseHead_eq_ok h).1]
    exact (Text.cut_eq_some_iff.1 hcut).2
  · rename_i hcut
    rw [← (parseHead_eq_ok h).1]
    exact Text.cut_eq_none_iff.1 hcut

/-! ## The keys that can be read -/

/-- The owner and the name that are read are there, and no slash is in the name. -/
theorem parts_of_parseHead {key head : Text} {d : Option Text} {k : MemberKey}
    (h : parseHead key head d = .ok k) : k.owner ≠ [] ∧ k.name ≠ [] ∧ '/' ∉ k.name := by
  unfold parseHead at h
  split at h
  · rename_i owner name hcut
    split at h
    · cases h
    · rename_i hparts
      obtain rfl := Except.ok.inj h
      rw [Bool.not_eq_true, Bool.or_eq_false_iff, List.isEmpty_eq_false_iff,
        List.isEmpty_eq_false_iff] at hparts
      exact ⟨hparts.1, hparts.2, (Text.cutLast_eq_some_iff.1 hcut).2⟩
  · cases h

theorem isReadable_of_parse {key : Text} {k : MemberKey} (h : parse key = .ok k) :
    k.IsReadable := by
  have hblank := blank_notMem_of_parse h
  rw [bareKey, List.mem_append, List.mem_cons, not_or, not_or] at hblank
  have hparts : k.owner ≠ [] ∧ k.name ≠ [] ∧ '/' ∉ k.name := by
    unfold parse at h
    split at h
    · exact parts_of_parseHead h
    · exact parts_of_parseHead h
  exact ⟨hparts.1, hblank.1, hparts.2.1, hblank.2.2, hparts.2.2⟩

/-- **Reading accepts exactly what writing produces.** -/
theorem parse_eq_ok_iff {key : Text} {k : MemberKey} :
    parse key = .ok k ↔ k.IsReadable ∧ k.format = key := by
  constructor
  · exact fun h => ⟨isReadable_of_parse h, format_of_parse h⟩
  · rintro ⟨hk, rfl⟩
    exact parse_format hk

/-- The part of a key in front of its first blank. -/
def front (key : Text) : Text := key.takeWhile (· != ' ')

/-- In front of its first blank a key has an owner and a name around the last slash. -/
def HasParts (key : Text) : Prop :=
  ∃ owner name, front key = bareKey owner name ∧ owner ≠ [] ∧ name ≠ [] ∧ '/' ∉ name

/-- A descriptor follows the first blank of a key. -/
def HasDescriptor (key : Text) : Prop := ∃ d, d ≠ [] ∧ key = front key ++ ' ' :: d

theorem blank_notMem_front (key : Text) : ' ' ∉ front key := by
  intro h
  exact absurd (List.mem_takeWhile_imp h) (by decide)

theorem front_append {head : Text} (h : ' ' ∉ head) (d : Text) :
    front (head ++ ' ' :: d) = head := by
  have hhead : ∀ c ∈ head, (c != ' ') = true := fun c hc => bne_iff_ne.2 fun e => h (e ▸ hc)
  rw [front, List.takeWhile_append_of_pos hhead, List.takeWhile_cons, if_neg (by decide),
    List.append_nil]

theorem front_eq_self {key : Text} (h : ' ' ∉ key) : front key = key :=
  List.takeWhile_eq_self_iff.2 fun _ hc => bne_iff_ne.2 fun e => h (e ▸ hc)

/-- What is left of a key behind its first blank, if there is one. -/
theorem eq_front_or (key : Text) : key = front key ∨ ∃ d, key = front key ++ ' ' :: d := by
  by_cases h : ' ' ∈ key
  · obtain ⟨head, d, hkey, hhead⟩ := List.eq_append_cons_of_mem h
    rw [hkey, front_append hhead]
    exact .inr ⟨d, rfl⟩
  · exact .inl (front_eq_self h).symm

theorem front_format {k : MemberKey} (h : k.IsReadable) :
    front k.format = bareKey k.owner k.name := by
  have hblank := blank_notMem_bareKey h.owner h.name.1
  unfold format
  split
  · exact front_eq_self hblank
  · exact front_append hblank _

/-- The keys that can be read are those with an owner and a name. -/
theorem exists_parse_iff {key : Text} : (∃ k, parse key = .ok k) ↔ HasParts key := by
  constructor
  · rintro ⟨k, h⟩
    obtain ⟨hk, rfl⟩ := parse_eq_ok_iff.1 h
    exact ⟨k.owner, k.name, front_format hk, hk.owner_ne, hk.name_ne, hk.name.2⟩
  · rintro ⟨owner, name, hfront, howner, hname, hslash⟩
    have hblank := blank_notMem_front key
    rw [hfront, bareKey, List.mem_append, List.mem_cons, not_or, not_or] at hblank
    have hread : ∀ d, IsReadable ⟨owner, name, d⟩ := fun d =>
      ⟨howner, hblank.1, hname, hblank.2.2, hslash⟩
    rcases eq_front_or key with hkey | ⟨d, hkey⟩
    · exact ⟨⟨owner, name, none⟩, parse_eq_ok_iff.2 ⟨hread none, by rw [hkey, hfront]; rfl⟩⟩
    · exact ⟨⟨owner, name, some d⟩,
        parse_eq_ok_iff.2 ⟨hread (some d), by rw [hkey, hfront]; rfl⟩⟩

/-- The descriptor of a member stands behind the first blank of its key. -/
theorem hasDescriptor_format {k : MemberKey} (h : k.IsReadable) :
    HasDescriptor k.format ↔ ∃ d, k.descriptor = some d ∧ d ≠ [] := by
  unfold HasDescriptor
  rw [front_format h]
  obtain ⟨owner, name, descriptor⟩ := k
  cases descriptor with
  | none =>
    constructor
    · rintro ⟨d, -, hkey⟩
      exact absurd (List.self_eq_append_right.1 hkey) (List.cons_ne_nil ' ' d)
    · rintro ⟨d, hd, -⟩
      cases hd
  | some d =>
    constructor
    · rintro ⟨d', hne, hkey⟩
      obtain rfl : d = d' := (List.cons.inj (List.append_cancel_left hkey)).2
      exact ⟨d, rfl, hne⟩
    · rintro ⟨d', hd, hne⟩
      cases hd
      exact ⟨d, hne, rfl⟩

theorem exists_parseMethod_iff {key : Text} :
    (∃ k, parseMethod key = .ok k) ↔ HasParts key ∧ HasDescriptor key := by
  rw [← exists_parse_iff]
  constructor
  · rintro ⟨k, h⟩
    obtain ⟨hparse, hdescriptor⟩ := parseMethod_eq_ok_iff.1 h
    obtain ⟨hk, rfl⟩ := parse_eq_ok_iff.1 hparse
    exact ⟨⟨k, hparse⟩, (hasDescriptor_format hk).2 hdescriptor⟩
  · rintro ⟨⟨k, h⟩, hdescriptor⟩
    obtain ⟨hk, rfl⟩ := parse_eq_ok_iff.1 h
    exact ⟨k, parseMethod_eq_ok_iff.2 ⟨h, (hasDescriptor_format hk).1 hdescriptor⟩⟩

/-- **Keys are read and written without loss.** -/
theorem parse_lossless :
    (∀ key, ((∃ k, parse key = .ok k) ↔ HasParts key) ∧
      (∀ k, parse key = .ok k → k.format = key) ∧
      ((∃ k, parseMethod key = .ok k) ↔ HasParts key ∧ HasDescriptor key)) ∧
    (∀ k : MemberKey, k.IsReadable → parse k.format = .ok k) ∧
    ∀ k k' : MemberKey, k.IsReadable → k'.IsReadable → k.format = k'.format → k = k' := by
  refine ⟨fun key => ⟨exists_parse_iff, fun k => format_of_parse, exists_parseMethod_iff⟩,
    fun k => parse_format, fun k k' hk hk' h => ?_⟩
  have hread := parse_format hk
  rw [h, parse_format hk'] at hread
  exact (Except.ok.inj hread).symm

/-- Slashes in the owner, and both separators in the descriptor. -/
def spacedKey : MemberKey := ⟨"a/b".toList, "f".toList, some "La/b; c/d".toList⟩

theorem parse_lossless_spacedKey :
    spacedKey.IsReadable ∧ parse spacedKey.format = .ok spacedKey := by
  have hread : spacedKey.IsReadable := ⟨by decide, by decide, by decide, by decide, by decide⟩
  exact ⟨hread, parse_lossless.2.1 spacedKey hread⟩

end MemberKey

end Renaming
