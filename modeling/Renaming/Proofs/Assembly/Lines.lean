import Renaming.Assembly.Renamed
import Renaming.Proofs.Assembly.Zone
import Renaming.Proofs.Text.Pieces

/-!
# `Proofs/Assembly/Lines` — lines and their parts, put together again

A text is renamed line by line and part by part, and then it is put together. Whoever reads the
result takes it apart anew, so what is wanted is when this gives the same lines and parts:

* the lines of lines put together are the lines of each of them (`sourceLines_rename`), which is the
  line itself unless a line feed came into it;
* code, comment and carriage return of a line are found again when no number sign in the code starts
  a comment and the line ended in a carriage return only where one was put aside
  (`lineParts_append`).
-/

set_option autoImplicit false

namespace Renaming

namespace Assembly

theorem notMem_of_mem_sourceLines {text line : Text} (h : line ∈ sourceLines text) :
    '\n' ∉ line := by
  intro hfeed
  have hmark := Text.not_of_mem_splitWhere h hfeed
  exact absurd hmark (by decide)

theorem sourceLines_ne_nil (text : Text) : sourceLines text ≠ [] := Text.splitWhere_ne_nil _ text

theorem renamedLine_fst (t : Table) (owner line : Text) :
    (renamedLine t owner line).1 = (renameLine t owner (lineParts line).code).text ++
      (lineParts line).comment ++ (lineParts line).ending := rfl

/-- **A renamed text has the lines of its renamed lines.** -/
theorem sourceLines_rename {t : Table} {text owner : Text}
    (h : findClassName text = some owner) :
    sourceLines (rename t text).text =
      (sourceLines text).flatMap fun line => sourceLines (renamedLine t owner line).1 := by
  have htext : (rename t text).text = Text.joinWith '\n'
      ((sourceLines text).map fun line => (renamedLine t owner line).1) := by
    simp only [rename, h, List.map_map, Function.comp_def]
  rw [htext, sourceLines, Text.splitOn_joinWith (by simpa using sourceLines_ne_nil text),
    List.flatMap_map]
  rfl

/-! ## Code without a comment -/

/-- From zone `z` on, no number sign of the text starts a comment. -/
def Uncommented (z : Zone) (t : Text) : Prop := (splitFrom z t).2 = []

theorem uncommented_cons {z : Zone} {c : Char} {t : Text} :
    Uncommented z (c :: t) ↔ ¬ (z = .code ∧ c = '#') ∧ Uncommented (z.next c) t := by
  unfold Uncommented
  rw [splitFrom]
  split
  · rename_i h
    exact iff_of_false (List.cons_ne_nil _ _) fun hn => hn.1 h
  · rename_i h
    exact (and_iff_right h).symm

theorem uncommented_append {z : Zone} {s t : Text} :
    Uncommented z (s ++ t) ↔ Uncommented z s ∧ Uncommented (z.after s) t := by
  induction s generalizing z with
  | nil => exact (and_iff_right rfl).symm
  | cons c s ih => rw [List.cons_append, uncommented_cons, uncommented_cons, ih, and_assoc]; rfl

/-- In code without a quote every number sign starts a comment. -/
theorem uncommented_code_iff {t : Text} (hq : '"' ∉ t) : Uncommented .code t ↔ '#' ∉ t := by
  induction t with
  | nil => exact iff_of_true rfl List.not_mem_nil
  | cons c t ih =>
    rw [List.mem_cons, not_or] at hq
    have hnext : Zone.code.next c = .code := if_neg (Ne.symm hq.1)
    rw [uncommented_cons, hnext, ih hq.2, List.mem_cons, not_or]
    exact and_congr_left fun _ => ⟨fun h e => h ⟨rfl, e.symm⟩, fun h hc => h hc.2.symm⟩

theorem splitFrom_append_of_uncommented {z : Zone} {s : Text} (h : Uncommented z s) (t : Text) :
    splitFrom z (s ++ t) =
      (s ++ (splitFrom (z.after s) t).1, (splitFrom (z.after s) t).2) := by
  induction s generalizing z with
  | nil => rfl
  | cons c s ih =>
    obtain ⟨hc, hs⟩ := uncommented_cons.1 h
    rw [List.cons_append, splitFrom, if_neg hc, ih hs]
    rfl

/-- What was split off is code without a comment and then nothing but comment. -/
theorem splitFrom_parts (z : Zone) (t : Text) :
    Uncommented z (splitFrom z t).1 ∧
      splitFrom (z.after (splitFrom z t).1) (splitFrom z t).2 = ([], (splitFrom z t).2) := by
  induction t generalizing z with
  | nil => exact ⟨rfl, rfl⟩
  | cons c t ih =>
    rw [splitFrom]
    split
    · rename_i h
      obtain ⟨rfl, rfl⟩ := h
      exact ⟨rfl, rfl⟩
    · rename_i h
      obtain ⟨hcode, hcomment⟩ := ih (z.next c)
      exact ⟨uncommented_cons.2 ⟨h, hcode⟩, hcomment⟩

/-- A comment begins with the number sign. -/
theorem splitFrom_comment (z : Zone) (t : Text) :
    (splitFrom z t).2 = [] ∨ ∃ r, (splitFrom z t).2 = '#' :: r := by
  induction t generalizing z with
  | nil => exact .inl rfl
  | cons c t ih =>
    rw [splitFrom]
    split
    · rename_i h
      exact .inr ⟨t, by rw [h.2]⟩
    · exact ih (z.next c)

/-! ## The parts of a line -/

/-- The parts of a line make it up again. -/
theorem append_lineParts (line : Text) :
    (lineParts line).code ++ (lineParts line).comment ++ (lineParts line).ending = line := by
  have hbody : (splitReturn line).1 ++ (splitReturn line).2 = line := by
    unfold splitReturn
    split
    · rename_i h
      exact List.dropLast_append_getLast? _ h
    · exact List.append_nil line
  show (splitComment _).1 ++ (splitComment _).2 ++ _ = line
  rw [splitComment_append]
  exact hbody

/-- A carriage return is put aside wherever the line ends in one. -/
theorem ending_lineParts (line : Text) :
    (lineParts line).ending = ['\r'] ∨
      (lineParts line).ending = [] ∧
        ((lineParts line).code ++ (lineParts line).comment).getLast? ≠ some '\r' := by
  have hbody : (lineParts line).code ++ (lineParts line).comment = (splitReturn line).1 :=
    splitComment_append _
  rw [hbody]
  show (splitReturn line).2 = ['\r'] ∨ (splitReturn line).2 = [] ∧ _
  unfold splitReturn
  split
  · exact .inl rfl
  · rename_i h
    exact .inr ⟨rfl, h⟩

/-- **Parts that are put together are found again.** -/
theorem lineParts_append {code comment ending : Text} (hcode : Uncommented .code code)
    (hcomment : splitFrom (Zone.code.after code) comment = ([], comment))
    (hending : ending = ['\r'] ∨ ending = [] ∧ (code ++ comment).getLast? ≠ some '\r') :
    lineParts (code ++ comment ++ ending) = ⟨code, comment, ending⟩ := by
  have hreturn : splitReturn (code ++ comment ++ ending) = (code ++ comment, ending) := by
    unfold splitReturn
    rcases hending with rfl | ⟨rfl, hlast⟩
    · rw [if_pos (by simp), List.dropLast_concat]
    · rw [List.append_nil, if_neg hlast]
  have hsplit : splitComment (code ++ comment) = (code, comment) := by
    rw [splitComment, splitFrom_append_of_uncommented hcode, hcomment, List.append_nil]
  simp only [lineParts, hreturn, hsplit]

/-- In a line that is not taken apart, a carriage return behind the code belongs to the code. -/
theorem splitComment_parts {code comment ending : Text} (hcode : Uncommented .code code)
    (hcomment : splitFrom (Zone.code.after code) comment = ([], comment))
    (hending : ending = ['\r'] ∨ ending = []) :
    ∃ blanks, (∀ c ∈ blanks, Text.isBlank c = true) ∧
      (splitComment (code ++ comment ++ ending)).1 = code ++ blanks := by
  rw [splitComment, List.append_assoc, splitFrom_append_of_uncommented hcode]
  refine ⟨_, ?_, rfl⟩
  cases comment with
  | nil =>
    rcases hending with rfl | rfl
    · intro c hc
      have hcarriage : splitFrom (Zone.code.after code) ['\r'] = (['\r'], []) := by
        rw [splitFrom, if_neg fun h => absurd h.2 (by decide)]
        rfl
      rw [List.nil_append, hcarriage, List.mem_singleton] at hc
      rw [hc]
      decide
    · exact fun c hc => absurd hc List.not_mem_nil
  | cons d comment =>
    -- a comment begins in code, so it goes on to the end of the line
    rw [splitFrom] at hcomment
    split at hcomment
    · rename_i h
      rw [List.cons_append, splitFrom, if_pos h]
      exact fun c hc => absurd hc List.not_mem_nil
    · exact absurd (Prod.mk.inj hcomment).1 (List.cons_ne_nil _ _)

theorem uncommented_lineParts (line : Text) : Uncommented .code (lineParts line).code :=
  (splitFrom_parts .code _).1

theorem splitFrom_lineParts (line : Text) :
    splitFrom (Zone.code.after (lineParts line).code) (lineParts line).comment =
      ([], (lineParts line).comment) := (splitFrom_parts .code _).2

end Assembly

end Renaming
