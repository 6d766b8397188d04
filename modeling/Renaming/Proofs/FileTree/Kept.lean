import Renaming.Proofs.FileTree.Path

/-!
# `Proofs/FileTree/Kept` — what an operation on a file tree leaves as it was

Every operation touches the files at one or two places. `KeptBut S t t'` says that the files at all
places outside `S` are in `t'` as they were in `t`, and that no folder of `t` is gone; it composes,
so what a whole run leaves alone is read off its steps.

Folders that are added are no concern of it. That none is ever taken away is, because a path that
could be followed before can be followed again only as long as its folders are there
(`KeptBut.place`).
-/

set_option autoImplicit false

namespace Renaming

namespace FileTree

def content? (t : FileTree) (q : Place) : Option Bytes :=
  match t.at? q with
  | some (.file b) => some b
  | _ => none

theorem content?_eq_some_iff {t : FileTree} {q : Place} {b : Bytes} :
    t.content? q = some b ↔ t.at? q = some (.file b) := by
  unfold content?
  split
  · rename_i h
    rw [h]
    simp
  · rename_i h
    simp only [reduceCtorEq, false_iff]
    exact h b

theorem content?_congr {t t' : FileTree} {q : Place} (h : t'.at? q = t.at? q) :
    t'.content? q = t.content? q := by
  unfold content?
  rw [h]

theorem at?_set_self (t : FileTree) {p : Place} (hp : p ≠ []) (n : Node) :
    (t.set p n).at? p = some n := by
  rw [at?, if_neg hp]
  exact OrderedMap.get?_insert_self t.nodes p n

theorem at?_set_of_ne (t : FileTree) {p q : Place} (h : q ≠ p) (n : Node) :
    (t.set p n).at? q = t.at? q := by
  unfold at?
  split
  · rfl
  · exact OrderedMap.get?_insert_of_ne t.nodes h n

theorem at?_erase_self (t : FileTree) {p : Place} (hp : p ≠ []) : (t.erase p).at? p = none := by
  rw [at?, if_neg hp]
  exact OrderedMap.get?_erase_self t.nodes p

theorem at?_erase_of_ne (t : FileTree) {p q : Place} (h : q ≠ p) :
    (t.erase p).at? q = t.at? q := by
  unfold at?
  split
  · rfl
  · exact OrderedMap.get?_erase_of_ne t.nodes h

@[simp] theorem at?_root (t : FileTree) : t.at? [] = some .folder := if_pos rfl

theorem ne_root {t : FileTree} {p : Place} (h : t.at? p ≠ some .folder) : p ≠ [] := by
  rintro rfl
  exact h t.at?_root

/-! ## Where paths lead -/

/-- Names are followed as two dots take away names in front. -/
theorem follow_eq {t : FileTree} {ns : List Text} {p q : Place} (h : t.follow p ns = .ok q) :
    q = (ns.foldl Path.enter p.reverse).reverse := by
  induction ns generalizing p with
  | nil =>
    cases h
    exact (List.reverse_reverse _).symm
  | cons n ns ih =>
    rw [follow] at h
    split at h
    · cases h
    · cases h
    · rw [List.foldl_cons, Path.enter]
      split at h
      · rename_i hup
        rw [ih h, if_pos hup, List.tail_reverse]
      · rename_i hup
        split at h
        · cases h
        · rw [ih h, if_neg hup, List.reverse_append]
          rfl

theorem place_eq {t : FileTree} {p : Path} {q : Place} (h : t.place p = .ok q) : q = p.place := by
  unfold place at h
  split at h
  · cases h
  · exact follow_eq h

theorem read_eq_ok_iff {t : FileTree} {p : Path} {b : Bytes} :
    t.read p = .ok b ↔ t.place p = .ok p.place ∧ t.content? p.place = some b := by
  unfold read
  cases h : t.place p with
  | error e => simp [bind, Except.bind]
  | ok q =>
    obtain rfl := place_eq h
    simp only [bind, Except.bind, true_and, content?_eq_some_iff]
    cases hat : t.at? p.place with
    | none => simp [throw, throwThe, MonadExceptOf.throw]
    | some n =>
      cases n with
      | folder => simp [throw, throwThe, MonadExceptOf.throw]
      | file c => simp [pure, Except.pure]

/-! ## Ways from the root -/

/-- Whether all folders above a place are there and its names are names. -/
def Open (t : FileTree) (q : Place) : Prop :=
  ∀ a n b, q = a ++ n :: b → t.at? a = some .folder ∧ n ≠ Path.up ∧ Path.byteLength n ≤ maxNameBytes

theorem open_root (t : FileTree) : t.Open [] := by
  intro a n b h
  simp at h

theorem Open.dropLast {t : FileTree} {p : Place} (h : t.Open p) : t.Open p.dropLast := by
  intro a n b hsplit
  have hne : p ≠ [] := by
    rintro rfl
    simp at hsplit
  apply h a n (b ++ [p.getLast hne])
  rw [← List.cons_append, ← List.append_assoc, ← hsplit, List.dropLast_concat_getLast hne]

theorem Open.push {t : FileTree} {p : Place} (h : t.Open p) (hp : t.at? p = some .folder) {n : Text}
    (hup : n ≠ Path.up) (hlen : Path.byteLength n ≤ maxNameBytes) : t.Open (p ++ [n]) := by
  intro a m b hsplit
  -- Either `m` is the name that was added, or it was a name of the place before.
  rcases List.eq_nil_or_concat b with rfl | ⟨b, l, rfl⟩
  · obtain ⟨rfl, hn⟩ := List.append_inj' hsplit rfl
    cases hn
    exact ⟨hp, hup, hlen⟩
  · have hinit : p ++ [n] = (a ++ m :: b) ++ [l] := by simpa using hsplit
    obtain ⟨rfl, -⟩ := List.append_inj' hinit rfl
    exact h a m b rfl

/-- A place that names lead to can be reached from the root without two dots. -/
theorem open_of_follow {t : FileTree} {ns : List Text} {p q : Place} (hp : t.Open p)
    (h : t.follow p ns = .ok q) : t.Open q := by
  induction ns generalizing p with
  | nil =>
    cases h
    exact hp
  | cons n ns ih =>
    rw [follow] at h
    split at h
    · cases h
    · cases h
    · rename_i hfolder
      split at h
      · exact ih hp.dropLast h
      · rename_i hup
        split at h
        · cases h
        · rename_i hlen
          exact ih (hp.push hfolder hup (Nat.le_of_not_lt hlen)) h

theorem follow_of_open {t : FileTree} {p : Place} {ns : List Text} (h : t.Open (p ++ ns)) :
    t.follow p ns = .ok (p ++ ns) := by
  induction ns generalizing p with
  | nil => rw [follow, List.append_nil]
  | cons n ns ih =>
    obtain ⟨hfolder, hup, hlen⟩ := h p n ns rfl
    have hsplit : p ++ n :: ns = p ++ [n] ++ ns := by simp
    rw [follow, hfolder]
    simp only [if_neg hup, if_neg (Nat.not_lt.2 hlen)]
    rw [hsplit] at h ⊢
    exact ih h

/-- Where a path leads, the path without two dots leads too, if the root in front of it does not
make it too long. -/
theorem place_normal {t : FileTree} {p : Path} (h : t.place p = .ok p.place)
    (hlen : p.isAbsolute = false → Path.byteLength p.normal.text ≤ maxPathBytes) :
    t.place p.normal = .ok p.place := by
  rw [FileTree.place] at h
  split at h
  · cases h
  · rename_i hshort
    have hnormal : Path.byteLength p.normal.text ≤ maxPathBytes := by
      cases hroot : p.isAbsolute with
      | false => exact hlen hroot
      | true => exact (Path.byteLength_normal_le hroot).trans (Nat.le_of_not_lt hshort)
    rw [FileTree.place, if_neg (Nat.not_lt.2 hnormal)]
    exact follow_of_open (p := []) (open_of_follow t.open_root h)

/-! ## What is left as it was -/

/-- Outside some places all files are as they were, and no folder is gone. -/
structure KeptBut (S : List Place) (t t' : FileTree) : Prop where
  content : ∀ q ∉ S, t'.content? q = t.content? q
  folder : ∀ q, t.at? q = some .folder → t'.at? q = some .folder

namespace KeptBut

variable {S T : List Place} {t t' t'' : FileTree}

theorem refl (S : List Place) (t : FileTree) : KeptBut S t t := ⟨fun _ _ => rfl, fun _ h => h⟩

theorem mono (h : KeptBut S t t') (hsub : ∀ q ∈ S, q ∈ T) : KeptBut T t t' :=
  ⟨fun q hq => h.content q fun hmem => hq (hsub q hmem), h.folder⟩

theorem trans (h : KeptBut S t t') (h' : KeptBut S t' t'') : KeptBut S t t'' :=
  ⟨fun q hq => (h'.content q hq).trans (h.content q hq), fun q hq => h'.folder q (h.folder q hq)⟩

theorem append (h : KeptBut S t t') (h' : KeptBut T t' t'') : KeptBut (S ++ T) t t'' :=
  (h.mono fun _ => List.mem_append_left T).trans (h'.mono fun _ => List.mem_append_right S)

/-- Where names lead, they still lead when no folder is gone. -/
theorem follow (h : KeptBut S t t') {ns : List Text} {p q : Place} (hq : t.follow p ns = .ok q) :
    t'.follow p ns = .ok q := by
  induction ns generalizing p with
  | nil => exact hq
  | cons n ns ih =>
    rw [FileTree.follow] at hq ⊢
    split at hq
    · cases hq
    · cases hq
    · rename_i hp
      rw [h.folder p hp]
      split at hq
      · rename_i hup
        rw [if_pos hup]
        exact ih hq
      · rename_i hup
        rw [if_neg hup]
        split at hq
        · cases hq
        · rename_i hlen
          rw [if_neg hlen]
          exact ih hq

theorem place (h : KeptBut S t t') {p : Path} {q : Place} (hq : t.place p = .ok q) :
    t'.place p = .ok q := by
  unfold FileTree.place at hq ⊢
  split at hq
  · cases hq
  · rename_i hlen
    rw [if_neg hlen]
    exact h.follow hq

end KeptBut

theorem keptBut_of_at? {t t' : FileTree} {p : Place} (h : t.at? p ≠ some .folder)
    (hat : ∀ q, q ≠ p → t'.at? q = t.at? q) : KeptBut [p] t t' := by
  constructor
  · intro q hq
    exact content?_congr (hat q (by simpa using hq))
  · intro q hq
    rw [hat q (by rintro rfl; exact h hq)]
    exact hq

theorem keptBut_set_file {t : FileTree} {p : Place} (h : t.at? p ≠ some .folder) (b : Bytes) :
    KeptBut [p] t (t.set p (.file b)) :=
  keptBut_of_at? h fun _ hq => at?_set_of_ne t hq (.file b)

theorem keptBut_erase {t : FileTree} {p : Place} (h : t.at? p ≠ some .folder) :
    KeptBut [p] t (t.erase p) :=
  keptBut_of_at? h fun _ hq => at?_erase_of_ne t hq

theorem keptBut_set_folder {t : FileTree} {p : Place} (h : t.at? p = none) :
    KeptBut [] t (t.set p .folder) := by
  -- Only `p` itself needs a second look: there was no file, and there is none.
  have hne : t.at? p ≠ some .folder := by simp [h]
  have hkept := keptBut_of_at? hne fun _ hq => at?_set_of_ne t hq .folder
  refine ⟨fun q _ => ?_, hkept.folder⟩
  by_cases hq : q = p
  · subst hq
    simp [content?, h, at?_set_self t (ne_root hne)]
  · exact hkept.content q (by simpa using hq)

theorem content?_set_file {t : FileTree} {p : Place} (h : t.at? p ≠ some .folder) (b : Bytes) :
    (t.set p (.file b)).content? p = some b :=
  content?_eq_some_iff.2 (at?_set_self t (ne_root h) (.file b))

theorem content?_erase {t : FileTree} {p : Place} (h : t.at? p ≠ some .folder) :
    (t.erase p).content? p = none := by
  simp [content?, at?_erase_self t (ne_root h)]

/-! ## The operations -/

section Operations

variable {t t' : FileTree} {p q : Path} {b : Bytes}

/-- What an operation at the place of a path does once it is there. -/
theorem bind_place_eq_ok {f : Place → Except DiskFault FileTree}
    (h : (t.place p >>= f) = .ok t') : f p.place = .ok t' := by
  cases hplace : t.place p with
  | error e =>
    rw [hplace] at h
    cases h
  | ok r =>
    rw [hplace] at h
    rw [← place_eq hplace]
    exact h

theorem write_eq_ok (h : t.write p b = .ok t') :
    t.at? p.place ≠ some .folder ∧ t' = t.set p.place (.file b) := by
  have h := bind_place_eq_ok h
  split at h
  · cases h
  · rename_i hne
    cases h
    exact ⟨hne, rfl⟩

theorem makeFolder_eq_ok (h : t.makeFolder p = .ok t') :
    t.at? p.place = none ∧ t' = t.set p.place .folder := by
  have h := bind_place_eq_ok h
  split at h
  · cases h
  · rename_i hnone
    cases h
    exact ⟨hnone, rfl⟩

theorem remove_eq_ok (h : t.remove p = .ok t') :
    t.at? p.place ≠ some .folder ∧ t' = t.erase p.place := by
  have h := bind_place_eq_ok h
  split at h
  · cases h
  · cases h
  · rename_i c hfile
    cases h
    exact ⟨by simp [hfile], rfl⟩

theorem move_eq_ok (h : t.move p q = .ok t') :
    ∃ c, t.content? p.place = some c ∧ t.at? q.place ≠ some .folder ∧
      t' = (t.erase p.place).set q.place (.file c) := by
  have h := bind_place_eq_ok (bind_place_eq_ok h)
  split at h
  · cases h
  · cases h
  · cases h
  · rename_i c hfile hfolder
    cases h
    exact ⟨c, content?_eq_some_iff.2 hfile, hfolder, rfl⟩

end Operations

end FileTree

end Renaming
