/-!
# `Text/Basic` — text as a list of characters, and the ways to cut it

Every rule of the library is about single characters, so text is the plain list of them: a
statement about a cut, a prefix or a count is then a statement about lists, and nothing has to
be carried over from an encoded form. Strings appear only where text enters or leaves the
program.

The three cuts below are the separators of every notation: the first mark (`cut`), the last mark
(`cutLast`) and all marks (`splitOn`). Each comes with the equation that puts the text back
together, and with the fact that says where the mark was found.
-/

set_option autoImplicit false

namespace Renaming

/-- A text is its sequence of code points. -/
abbrev Text := List Char

namespace Text

/-- Comparing texts character by character tells whether they are equal. -/
instance : LawfulBEq Text := List.instLawfulBEq

/-! ## Cutting at the first mark -/

/-- What stands before and after the first `c`, or nothing when `c` does not occur. -/
def cut (c : Char) : Text → Option (Text × Text)
  | [] => none
  | d :: r => if d = c then some ([], r) else (cut c r).map fun p => (d :: p.1, p.2)

/-- A cut loses only the mark, and the part before it holds no mark. -/
theorem cut_eq_some_iff {c : Char} {t a b : Text} :
    cut c t = some (a, b) ↔ t = a ++ c :: b ∧ c ∉ a := by
  induction t generalizing a b with
  | nil => simp [cut]
  | cons d r ih =>
    by_cases h : d = c
    · subst h
      cases a with
      | nil => simp [cut]
      | cons x a =>
        simp only [cut, if_pos]
        constructor
        · intro h; simp at h
        · rintro ⟨h, hn⟩
          simp only [List.cons_append, List.cons.injEq] at h
          exact absurd (h.1 ▸ List.mem_cons_self) hn
    · rw [cut, if_neg h]
      cases a with
      | nil => simp [h]
      | cons x a =>
        simp only [Option.map_eq_some_iff, Prod.mk.injEq, List.cons.injEq, Prod.exists,
          List.cons_append, List.mem_cons, not_or]
        constructor
        · rintro ⟨a', b', hc, ⟨rfl, rfl⟩, rfl⟩
          exact ⟨⟨rfl, (ih.1 hc).1⟩, fun e => h e.symm, (ih.1 hc).2⟩
        · rintro ⟨⟨rfl, hr⟩, _, hn⟩
          exact ⟨a, b, ih.2 ⟨hr, hn⟩, ⟨rfl, rfl⟩, rfl⟩

/-- Without the mark there is nothing to cut. -/
theorem cut_eq_none_iff {c : Char} {t : Text} : cut c t = none ↔ c ∉ t := by
  induction t with
  | nil => simp [cut]
  | cons d r ih =>
    by_cases h : d = c
    · simp [cut, h]
    · simp only [cut, if_neg h, Option.map_eq_none_iff, ih, List.mem_cons, not_or]
      exact ⟨fun hr => ⟨fun e => h e.symm, hr⟩, fun hr => hr.2⟩

/-! ## Cutting at the last mark -/

/-- What stands before and after the last `c`, or nothing when `c` does not occur. -/
def cutLast (c : Char) : Text → Option (Text × Text)
  | [] => none
  | d :: r =>
    match cutLast c r with
    | some p => some (d :: p.1, p.2)
    | none => if d = c then some ([], r) else none

/-- Without the mark there is no last one either. -/
theorem cutLast_eq_none_iff {c : Char} {t : Text} : cutLast c t = none ↔ c ∉ t := by
  induction t with
  | nil => simp [cutLast]
  | cons d r ih =>
    cases hr : cutLast c r with
    | some p =>
      have : c ∈ r := by
        by_cases hm : c ∈ r
        · exact hm
        · rw [ih.2 hm] at hr; simp at hr
      simp [cutLast, hr, this]
    | none =>
      have hn := ih.1 hr
      by_cases h : d = c
      · simp [cutLast, hr, h]
      · simp only [cutLast, hr, if_neg h, List.mem_cons, not_or, true_iff]
        exact ⟨fun e => h e.symm, hn⟩

/-- The last cut loses only the mark, and the part after it holds no mark. -/
theorem cutLast_eq_some_iff {c : Char} {t a b : Text} :
    cutLast c t = some (a, b) ↔ t = a ++ c :: b ∧ c ∉ b := by
  induction t generalizing a b with
  | nil => simp [cutLast]
  | cons d r ih =>
    cases hr : cutLast c r with
    | some p =>
      obtain ⟨a', b'⟩ := p
      have hp := ih.1 hr
      simp only [cutLast, hr, Option.some.injEq, Prod.mk.injEq]
      constructor
      · rintro ⟨rfl, rfl⟩
        exact ⟨by rw [hp.1]; rfl, hp.2⟩
      · rintro ⟨ht, hn⟩
        cases a with
        | nil =>
          simp only [List.nil_append, List.cons.injEq] at ht
          exact absurd (by rw [← ht.2, hp.1]; simp) hn
        | cons x a =>
          simp only [List.cons_append, List.cons.injEq] at ht
          have := ih.2 ⟨ht.2, hn⟩
          rw [hr] at this
          simp only [Option.some.injEq, Prod.mk.injEq] at this
          exact ⟨by rw [ht.1, this.1], this.2⟩
    | none =>
      have hn := cutLast_eq_none_iff.1 hr
      by_cases h : d = c
      · subst h
        simp only [cutLast, hr, if_pos, Option.some.injEq, Prod.mk.injEq]
        constructor
        · rintro ⟨rfl, rfl⟩; exact ⟨rfl, hn⟩
        · rintro ⟨ht, hb⟩
          cases a with
          | nil => simp only [List.nil_append, List.cons.injEq] at ht; exact ⟨rfl, ht.2⟩
          | cons x a =>
            simp only [List.cons_append, List.cons.injEq] at ht
            exact absurd (by rw [ht.2]; simp) hn
      · simp only [cutLast, hr, if_neg h, reduceCtorEq, false_iff]
        rintro ⟨ht, _⟩
        cases a with
        | nil => simp only [List.nil_append, List.cons.injEq] at ht; exact h ht.1
        | cons x a =>
          simp only [List.cons_append, List.cons.injEq] at ht
          exact hn (by rw [ht.2]; simp)

/-! ## Cutting at every mark -/

/-- The pieces between the separators: one more than there are of them, so never none. -/
def splitWhere (p : Char → Bool) : Text → List Text
  | [] => [[]]
  | d :: r =>
    if p d then [] :: splitWhere p r
    else
      match splitWhere p r with
      | [] => [[d]]
      | w :: ws => (d :: w) :: ws

/-- The pieces between the marks. -/
def splitOn (c : Char) (t : Text) : List Text := splitWhere (· == c) t

/-- The pieces with a mark between each two of them. -/
def joinWith (c : Char) : List Text → Text
  | [] => []
  | [p] => p
  | p :: q :: ps => p ++ c :: joinWith c (q :: ps)

theorem splitWhere_ne_nil (p : Char → Bool) (t : Text) : splitWhere p t ≠ [] := by
  induction t with
  | nil => simp [splitWhere]
  | cons d r _ =>
    rw [splitWhere]
    split
    · simp
    · split <;> simp

/-- Splitting forgets nothing. -/
@[simp] theorem joinWith_splitOn (c : Char) (t : Text) : joinWith c (splitOn c t) = t := by
  unfold splitOn
  induction t with
  | nil => rfl
  | cons d r ih =>
    rw [splitWhere]
    cases hs : splitWhere (· == c) r with
    | nil => exact absurd hs (splitWhere_ne_nil _ r)
    | cons p ps =>
      rw [hs] at ih
      split
      · rename_i h
        simp [joinWith, ih, beq_iff_eq.1 h]
      · cases ps with
        | nil => simp only [joinWith] at ih ⊢; rw [ih]
        | cons q qs => simp only [joinWith, List.cons_append] at ih ⊢; rw [ih]

/-- No piece holds a separator. -/
theorem not_of_mem_splitWhere {p : Char → Bool} {t w : Text} (hw : w ∈ splitWhere p t) {c : Char}
    (hc : c ∈ w) : p c = false := by
  induction t generalizing w with
  | nil => simp only [splitWhere, List.mem_singleton] at hw; subst hw; cases hc
  | cons d r ih =>
    rw [splitWhere] at hw
    split at hw
    · rcases List.mem_cons.1 hw with rfl | hw
      · cases hc
      · exact ih hw hc
    · rename_i hd
      split at hw
      · rename_i hn; exact absurd hn (splitWhere_ne_nil _ r)
      · rename_i v vs hs
        rcases List.mem_cons.1 hw with rfl | hw
        · rcases List.mem_cons.1 hc with rfl | hc
          · simpa using hd
          · exact ih (by rw [hs]; exact List.mem_cons_self) hc
        · exact ih (by rw [hs]; exact List.mem_cons_of_mem _ hw) hc

/-! ## Small tests and replacements -/

def startsWith (p t : Text) : Bool := p.isPrefixOf t

def endsWith (s t : Text) : Bool := s.isSuffixOf t

/-- The same text with every `a` turned into `b`. -/
def replaceChar (a b : Char) (t : Text) : Text := t.map fun c => if c = a then b else c

/-- The text unless it is empty. An empty name counts as a missing one in every notation. -/
def nonempty? : Text → Option Text
  | [] => none
  | c :: r => some (c :: r)

/-- The lower-case form of the ASCII letters; every other character stays. -/
def lowerAscii (t : Text) : Text := t.map Char.toLower

/-- The text without its leading characters in `p`. -/
def dropLeading (p : Char → Bool) (t : Text) : Text := t.dropWhile p

/-- The text without its trailing characters in `p`. -/
def dropTrailing (p : Char → Bool) (t : Text) : Text := (t.reverse.dropWhile p).reverse

/-- Order by code points, the shorter of two texts first when one begins the other. -/
def le : Text → Text → Bool
  | [], _ => true
  | _ :: _, [] => false
  | a :: s, b :: t => if a = b then le s t else a.toNat ≤ b.toNat

/-- The decimal digits of a natural number. -/
def ofNat (n : Nat) : Text := Nat.toDigits 10 n

/-- The decimal digits of an integer, after a minus sign when it is negative. -/
def ofInt (n : Int) : Text := if n < 0 then '-' :: ofNat n.natAbs else ofNat n.natAbs

/-- The digits of a number, with zeros in front until there are `width` of them. -/
def padded (width n : Nat) : Text :=
  let ds := ofNat n
  List.replicate (width - ds.length) '0' ++ ds

end Text

end Renaming
