import Renaming.Proofs.Assembly.Lines

/-!
# `Proofs/Assembly/Scanned` — what a comment is, and what a literal

`splitComment` and `literals` go through a line by the zones of its characters. Here it is said
without zones what they find. A character is guarded when an odd number of backslashes stands right
in front of it (`Guards`); a literal goes from a quote to the first quote behind it that is not
guarded, or to the end of the text when there is none (`IsLiteralAt`). The two readings of a line
agree (`Scanned`):

> a comment begins at the first number sign that lies in no literal, and the literals of the code
> are the literals of the line that begin in front of it.

Zones and backslashes meet in one step lemma (`Reached.next`): whatever the next character is, the
zone behind it is the one that the backslashes in front of it ask for.
-/

set_option autoImplicit false

namespace Renaming

/-- Whether a place lies in a span. -/
def Span.Holds (s : Span) (i : Nat) : Prop := s.start ≤ i ∧ i < s.stop

namespace Assembly

/-! ## Literals by their backslashes -/

/-- What stands in a literal so far guards the next character: it ends in an odd number of
backslashes. -/
def Guards (u : Text) : Prop := (u.reverse.takeWhile (· == '\\')).length % 2 = 1

/-- Every quote in the text is guarded, so a literal goes on behind it. -/
def IsInner (u : Text) : Prop := ∀ v r, u = v ++ '"' :: r → Guards v

/-- A literal of a text lies in this span. -/
inductive IsLiteralAt : Text → Span → Prop
  /-- It ends behind the first quote that is not guarded. -/
  | closed {a u r : Text} (hu : IsInner u) (hclose : ¬ Guards u) :
      IsLiteralAt (a ++ '"' :: (u ++ '"' :: r)) ⟨a.length, a.length + u.length + 2⟩
  /-- There is no such quote, and it reaches to the end. -/
  | unclosed {a u : Text} (hu : IsInner u) :
      IsLiteralAt (a ++ '"' :: u) ⟨a.length, a.length + u.length + 1⟩

theorem IsLiteralAt.start_lt {t : Text} {s : Span} (h : IsLiteralAt t s) :
    s.start < s.stop ∧ s.stop ≤ t.length := by
  cases h with
  | closed | unclosed =>
    simp only [List.length_append, List.length_cons]
    omega

theorem guards_concat {u : Text} {c : Char} : Guards (u ++ [c]) ↔ c = '\\' ∧ ¬ Guards u := by
  unfold Guards
  rw [List.reverse_append, List.reverse_singleton, List.singleton_append, List.takeWhile_cons]
  split
  · rename_i hc
    rw [List.length_cons, and_iff_right (beq_iff_eq.1 hc)]
    omega
  · rename_i hc
    exact iff_of_false (by decide) fun h => hc (beq_iff_eq.2 h.1)

theorem isInner_nil : IsInner [] := fun v _ h => absurd h.symm (by simp)

theorem IsInner.concat {u : Text} {c : Char} (hu : IsInner u) (hc : c = '"' → Guards u) :
    IsInner (u ++ [c]) := by
  intro v r h
  rcases List.eq_nil_or_concat r with rfl | ⟨r', d, rfl⟩
  · -- the quote is the character that came last
    obtain ⟨rfl, hlast⟩ := List.append_inj' h rfl
    exact hc (List.singleton_inj.1 hlast)
  · rw [List.concat_eq_append, ← List.cons_append, ← List.append_assoc] at h
    exact hu v r' (List.append_inj' h rfl).1

/-! ## Zones by their backslashes -/

/-- What was read is in this zone: in code, or in a literal that was opened at the place `o`, behind
a text that guards the next character or does not. -/
inductive Reached : Text → Nat → Zone → Prop
  | code {a : Text} {o : Nat} : Reached a o .code
  | literal {a u : Text} (hu : IsInner u) (hg : ¬ Guards u) :
      Reached (a ++ '"' :: u) a.length .literal
  | guarded {a u : Text} (hu : IsInner u) (hg : Guards u) :
      Reached (a ++ '"' :: u) a.length .guarded

/-- **Each character leads to the zone that the backslashes ask for.** A literal is opened in
code. -/
theorem Reached.next {a : Text} {o : Nat} {z : Zone} (h : Reached a o z) (c : Char) :
    Reached (a ++ [c]) (if z = .code then a.length else o) (z.next c) := by
  cases h with
  | code =>
    rw [if_pos rfl, Zone.next]
    split
    · rename_i hc
      rw [hc]
      exact .literal isInner_nil (show ¬ _ = 1 by decide)
    · exact .code
  | @literal a u hu hg =>
    rw [if_neg (by decide), Zone.next, List.append_assoc, List.cons_append]
    split
    · rename_i hc
      exact .guarded (hu.concat fun h => absurd (hc.symm.trans h) (by decide))
        (guards_concat.2 ⟨hc, hg⟩)
    · rename_i hc
      split
      · exact .code
      · rename_i hquote
        exact .literal (hu.concat fun h => absurd h hquote) fun h => hc (guards_concat.1 h).1
  | @guarded a u hu hg =>
    rw [if_neg (by decide), List.append_assoc, List.cons_append]
    exact .literal (hu.concat fun _ => hg) fun h => (guards_concat.1 h).2 hg

/-! ## The literals that are found -/

theorem isLiteralAt_of_mem_literalsFrom {a t : Text} {o : Nat} {z : Zone} {s : Span}
    (h : Reached a o z) (hs : s ∈ literalsFrom o z a.length t) : IsLiteralAt (a ++ t) s := by
  induction t generalizing a o z with
  | nil =>
    rw [List.append_nil]
    cases h with
    | code => exact absurd hs List.not_mem_nil
    | @literal a u hu | @guarded a u hu =>
      have hstop : (a ++ '"' :: u).length = a.length + u.length + 1 := by
        rw [List.length_append, List.length_cons, Nat.add_assoc]
      rw [literalsFrom, List.mem_singleton, hstop] at hs
      · rw [hs]
        exact .unclosed hu
      · exact fun h => by cases h
  | cons c t ih =>
    rw [literalsFrom_cons, List.mem_append, List.mem_ite_nil_right, List.mem_singleton] at hs
    rcases hs with ⟨⟨rfl, rfl⟩, rfl⟩ | hs
    · cases h with
      | @literal a u hu hg =>
        rw [List.append_assoc, List.cons_append, List.length_append, List.length_cons]
        exact .closed hu hg
    · have hread := @ih (a ++ [c]) _ _ (h.next c) (by rwa [List.length_append])
      rwa [List.append_assoc] at hread

/-- **Every literal that is found is one.** -/
theorem isLiteralAt_of_mem_literals {t : Text} {s : Span} (hs : s ∈ literals t) :
    IsLiteralAt t s :=
  isLiteralAt_of_mem_literalsFrom (a := []) (.code (o := 0)) hs

theorem pairwise_literalsFrom (o : Nat) (z : Zone) (k : Nat) (t : Text) :
    (literalsFrom o z k t).Pairwise fun a b => a.stop ≤ b.start := by
  induction t generalizing o z k with
  | nil => cases z <;> simp [literalsFrom]
  | cons c t ih =>
    rw [literalsFrom_cons]
    split
    · rename_i hclose
      obtain ⟨rfl, rfl⟩ := hclose
      refine List.pairwise_cons.2 ⟨fun s hs => ?_, ih ..⟩
      -- code follows, so the place of the literal that was closed does not matter any more
      rw [show Zone.literal.next '"' = .code from rfl, literalsFrom_code _ (k + 1)] at hs
      exact le_start_of_mem_literalsFrom (Nat.le_refl _) (Nat.le_refl _) hs
    · exact ih ..

/-- The literals of a text come in order and share no place. -/
theorem pairwise_literals (t : Text) : (literals t).Pairwise fun a b => a.stop ≤ b.start :=
  pairwise_literalsFrom 0 .code 0 t

/-- No literal begins in another one. -/
theorem eq_of_holds_start {t : Text} {s s' : Span} (hs : s ∈ literals t) (hs' : s' ∈ literals t)
    (h : s'.Holds s.start) : s' = s := by
  have hstop := (isLiteralAt_of_mem_literals hs).start_lt.1
  have hapart := pairwise_literals t
  obtain ⟨front, behind, ht⟩ := List.append_of_mem hs
  rw [ht, List.pairwise_append, List.pairwise_cons] at hapart
  rw [ht] at hs'
  rcases List.mem_append.1 hs' with hs' | hs'
  · exact absurd (hapart.2.2 s' hs' s List.mem_cons_self) (Nat.not_le.2 h.2)
  · rcases List.mem_cons.1 hs' with rfl | hs'
    · rfl
    · exact absurd (Nat.le_trans (hapart.2.1.1 s' hs') h.1) (Nat.not_le.2 hstop)

/-- **A character lies outside of all literals exactly when it stands in code and is no quote.** -/
theorem exists_holds_iff {a t : Text} {c : Char} :
    (∃ s ∈ literals (a ++ c :: t), s.Holds a.length) ↔ Zone.code.after a ≠ .code ∨ c = '"' := by
  have hfree := literals_any_overlaps_iff (a := a) (w := [c]) (t := t) (List.cons_ne_nil c [])
  rw [List.singleton_append, List.any_eq_false, List.mem_singleton, List.length_singleton] at hfree
  have hoverlaps : ∀ s : Span, Span.overlaps ⟨a.length, a.length + 1⟩ s = true ↔
      s.Holds a.length := by
    intro s
    simp only [Span.overlaps, Span.Holds, Bool.and_eq_true, decide_eq_true_eq]
    omega
  constructor
  · rintro ⟨s, hs, hholds⟩
    by_contra hcode
    rw [not_or, not_not] at hcode
    exact hfree.2 ⟨hcode.1, Ne.symm hcode.2⟩ s hs ((hoverlaps s).2 hholds)
  · intro hzone
    by_contra hnone
    obtain ⟨hcode, hquote⟩ := hfree.1 fun s hs h => hnone ⟨s, hs, (hoverlaps s).1 h⟩
    exact hzone.elim (fun h => h hcode) fun h => hquote h.symm

/-- Behind a text that ends in code, literals are looked for afresh. -/
theorem literalsFrom_append {s t : Text} {o k : Nat} {z : Zone} (h : z.after s = .code) :
    literalsFrom o z k (s ++ t) =
      literalsFrom o z k s ++ literalsFrom o .code (k + s.length) t := by
  induction s generalizing o k z with
  | nil =>
    rw [Zone.after_nil] at h
    rw [h]
    rfl
  | cons c s ih =>
    have hlen : k + (c :: s).length = k + 1 + s.length := by rw [List.length_cons]; omega
    rw [Zone.after_cons] at h
    rw [hlen, List.cons_append, literalsFrom_cons, literalsFrom_cons, ih h, List.append_assoc,
      literalsFrom_code (if z = .code then k else o) o]

/-! ## Code and comment -/

/-- A comment begins in code. -/
theorem after_of_comment {line r : Text} (h : (splitComment line).2 = '#' :: r) :
    Zone.code.after (splitComment line).1 = .code := by
  have hparts := (splitFrom_parts .code line).2
  rw [show (splitFrom .code line).2 = '#' :: r from h, splitFrom] at hparts
  split at hparts
  · rename_i hcode
    exact hcode.1
  · exact absurd (Prod.mk.inj hparts).1 (List.cons_ne_nil _ _)

/-- **The literals of the code are those of the line that begin in front of the comment.** -/
theorem literals_code (line : Text) :
    literals (splitComment line).1 =
      (literals line).filter fun s => s.start < (splitComment line).1.length := by
  have hfront : ∀ s ∈ literals (splitComment line).1, s.start < (splitComment line).1.length :=
    fun s hs =>
      have hspan := (isLiteralAt_of_mem_literals hs).start_lt
      Nat.lt_of_lt_of_le hspan.1 hspan.2
  have hkeep : (literals (splitComment line).1).filter
      (fun s => s.start < (splitComment line).1.length) = literals (splitComment line).1 :=
    List.filter_eq_self.2 fun s hs => decide_eq_true (hfront s hs)
  have hline := splitComment_append line
  rcases splitFrom_comment .code line with hnone | ⟨r, hr⟩
  · rw [show (splitComment line).2 = [] from hnone, List.append_nil] at hline
    rw [hline] at hkeep ⊢
    exact hkeep.symm
  · have happend : literals line = literals (splitComment line).1 ++
        literalsFrom 0 .code (splitComment line).1.length (splitComment line).2 := by
      have h := literalsFrom_append (t := (splitComment line).2) (o := 0) (k := 0)
        (after_of_comment hr)
      rwa [hline, Nat.zero_add] at h
    rw [happend, List.filter_append, hkeep, List.filter_eq_nil_iff.2, List.append_nil]
    intro s hs
    rw [literalsFrom_code 0 (splitComment line).1.length] at hs
    have := le_start_of_mem_literalsFrom (Nat.le_refl _) (Nat.le_refl _) hs
    simpa using this

/-- A character at a place, with what stands around it. -/
theorem exists_of_getElem?_eq_some {t : Text} {i : Nat} {c : Char} (h : t[i]? = some c) :
    ∃ a r, t = a ++ c :: r ∧ a.length = i := by
  obtain ⟨hi, rfl⟩ := List.getElem?_eq_some_iff.1 h
  refine ⟨t.take i, t.drop (i + 1), ?_, ?_⟩
  · rw [← List.drop_eq_getElem_cons hi, List.take_append_drop]
  · rw [List.length_take, Nat.min_eq_left (Nat.le_of_lt hi)]

/-- What a line `t` is taken apart into, and what is found in it. -/
structure Scanned (t code comment : Text) : Prop where
  /-- Code and comment make up the line. -/
  whole : code ++ comment = t
  /-- A comment begins with a number sign that lies in no literal of the line. -/
  comment : comment = [] ∨ (∃ r, comment = '#' :: r) ∧ ∀ s ∈ literals t, ¬ s.Holds code.length
  /-- Every number sign of the code lies in a literal of the code. -/
  marks : ∀ i, code[i]? = some '#' → ∃ s ∈ literals code, s.Holds i
  /-- The literals of the code are those of the line that begin in front of the comment. -/
  literals : literals code = (literals t).filter fun s => s.start < code.length
  /-- The literals come in order and share no place. -/
  apart : (Assembly.literals t).Pairwise fun s s' => s.stop ≤ s'.start
  /-- Each begins with a quote and ends behind the next quote that is not guarded, or at the end. -/
  isLiteralAt : ∀ s ∈ Assembly.literals t, IsLiteralAt t s
  /-- Each begins outside of all others. -/
  outside : ∀ s ∈ Assembly.literals t, ∀ s' ∈ Assembly.literals t, s'.Holds s.start → s' = s
  /-- Every quote of the line lies in a literal. -/
  quotes : ∀ i, t[i]? = some '"' → ∃ s ∈ Assembly.literals t, s.Holds i

/-- **The readings of a line agree on what is a literal.** -/
theorem scanned_splitComment (line : Text) :
    Scanned line (splitComment line).1 (splitComment line).2 where
  whole := splitComment_append line
  comment := by
    rcases splitFrom_comment .code line with hnone | ⟨r, hr⟩
    · exact .inl hnone
    · refine .inr ⟨⟨r, hr⟩, ?_⟩
      have hzone := after_of_comment hr
      have hholds := exists_holds_iff (a := (splitComment line).1) (t := r) (c := '#')
      have hline : (splitComment line).1 ++ '#' :: r = line := by
        rw [← hr]
        exact splitComment_append line
      rw [hline] at hholds
      intro s hs h
      rcases hholds.1 ⟨s, hs, h⟩ with hcode | hquote
      · exact hcode hzone
      · exact absurd hquote (by decide)
  marks i hi := by
    obtain ⟨a, r, hcode, rfl⟩ := exists_of_getElem?_eq_some hi
    have hmarks := (splitFrom_parts .code line).1
    rw [show (splitFrom .code line).1 = a ++ '#' :: r from hcode, uncommented_append,
      uncommented_cons] at hmarks
    rw [hcode]
    exact exists_holds_iff.2 (.inl fun hzone => hmarks.2.1 ⟨hzone, rfl⟩)
  literals := literals_code line
  apart := pairwise_literals line
  isLiteralAt _ hs := isLiteralAt_of_mem_literals hs
  outside _ hs _ hs' h := eq_of_holds_start hs hs' h
  quotes i hi := by
    obtain ⟨a, r, hline, rfl⟩ := exists_of_getElem?_eq_some hi
    rw [hline]
    exact exists_holds_iff.2 (.inr rfl)

/-- A guarded quote and a number sign in a literal, and a quote in a comment. -/
example : splitComment "a \"#\\\"\" # \"b".toList = ("a \"#\\\"\" ".toList, "# \"b".toList) ∧
    literals "a \"#\\\"\" # \"b".toList = [⟨2, 7⟩, ⟨10, 12⟩] := by
  decide

end Assembly

end Renaming
