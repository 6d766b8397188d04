import Renaming.Proofs.Assembly.Lines
import Renaming.Proofs.Assembly.Substitution

/-!
# `Proofs/Assembly/Intact` — literals, comments and line ends stay

Three kinds of text in a file are nobody's name: what stands in literals, what stands in comments,
and the ends of the lines. Renaming leaves all of them as they are, line by line, as long as no new
name brings in a mark that starts one of them: a quote, a number sign or a line feed.

That nothing in a literal is replaced is an invariant of the passes already (`Replaces`). What is
shown here is that the new line, *read anew*, has the same comment behind its code and the same
literals in it: `quotedFrom` reads the literals off a text as texts, not as places, so it can be
followed along the pieces of a line, and what is replaced does not show in it.
-/

set_option autoImplicit false

namespace Renaming

namespace Assembly

open Line

/-- What stands in the literals of a text, with their quotes. -/
def literalTexts (t : Text) : List Text := (literals t).map (Span.part · t)

/-- What a line keeps when names in its code are replaced. -/
structure Intact (line renamed : Text) : Prop where
  ending : (lineParts renamed).ending = (lineParts line).ending
  comment : (lineParts renamed).comment = (lineParts line).comment
  literals : literalTexts (lineParts renamed).code = literalTexts (lineParts line).code

theorem Intact.refl (line : Text) : Intact line line := ⟨rfl, rfl, rfl⟩

/-! ## Literals as texts -/

/-- The literals of a text from a zone on. In a literal, `opened` is what it holds so far. -/
def quotedFrom (opened : Text) : Zone → Text → List Text
  | .code, [] => []
  | _, [] => [opened]
  | .code, c :: r => if c = '"' then quotedFrom [c] .literal r else quotedFrom opened .code r
  | .literal, c :: r =>
    if c = '\\' then quotedFrom (opened ++ [c]) .guarded r
    else if c = '"' then (opened ++ [c]) :: quotedFrom [] .code r
    else quotedFrom (opened ++ [c]) .literal r
  | .guarded, c :: r => quotedFrom (opened ++ [c]) .literal r

/-- In code, what was opened last no longer matters. -/
theorem quotedFrom_code (o o' t : Text) : quotedFrom o .code t = quotedFrom o' .code t := by
  induction t with
  | nil => rfl
  | cons c r ih =>
    rw [quotedFrom, quotedFrom]
    split
    · rfl
    · exact ih

/-- Code without a quote holds no literal. -/
theorem quotedFrom_append_of_notMem {w : Text} (hw : '"' ∉ w) (o t : Text) :
    quotedFrom o .code (w ++ t) = quotedFrom o .code t := by
  induction w with
  | nil => rfl
  | cons c w ih =>
    rw [List.mem_cons, not_or] at hw
    rw [List.cons_append, quotedFrom, if_neg (Ne.symm hw.1), ih hw.2]

/-- What a character does to the literals depends on the zone alone, not on what follows. -/
theorem quotedFrom_cons_congr {z : Zone} {c : Char} {s t : Text}
    (h : ∀ o, quotedFrom o (z.next c) s = quotedFrom o (z.next c) t) (o : Text) :
    quotedFrom o z (c :: s) = quotedFrom o z (c :: t) := by
  cases z with
  | code =>
    rw [quotedFrom, quotedFrom]
    rw [Zone.next] at h
    split
    · rename_i hc
      rw [if_pos hc] at h
      exact h _
    · rename_i hc
      rw [if_neg hc] at h
      exact h _
  | guarded => exact h _
  | literal =>
    rw [quotedFrom, quotedFrom]
    rw [Zone.next] at h
    split
    · rename_i hc
      rw [if_pos hc] at h
      exact h _
    · rename_i hguard
      rw [if_neg hguard] at h
      split
      · rename_i hc
        rw [if_pos hc] at h
        exact congrArg _ (h _)
      · rename_i hc
        rw [if_neg hc] at h
        exact h _

/-- The part of a text between a place and the end of what was read. -/
theorem part_append {a b : Text} {o : Nat} (ho : o ≤ a.length) :
    Span.part ⟨o, a.length⟩ (a ++ b) = a.drop o := by
  show ((a ++ b).drop o).take (a.length - o) = _
  rw [List.drop_append_of_le_length ho]
  exact List.take_left' List.length_drop

/-- Reading places and reading texts comes to the same. `a` is what was read before. -/
theorem map_part_literalsFrom {a t : Text} {o : Nat} {z : Zone} (ho : o ≤ a.length) :
    (literalsFrom o z a.length t).map (Span.part · (a ++ t)) = quotedFrom (a.drop o) z t := by
  induction t generalizing a o z with
  | nil =>
    cases z with
    | code => rfl
    | literal | guarded => exact congrArg (fun w => [w]) (part_append ho)
  | cons c t ih =>
    have hlen : (a ++ [c]).length = a.length + 1 := by simp
    have hopened : (a ++ [c]).drop o = a.drop o ++ [c] := List.drop_append_of_le_length ho
    have hnext : ∀ {o : Nat} {z : Zone}, o ≤ a.length + 1 →
        (literalsFrom o z (a.length + 1) t).map (Span.part · (a ++ c :: t)) =
          quotedFrom ((a ++ [c]).drop o) z t := by
      intro o z ho
      have h := @ih (a ++ [c]) o z (by omega)
      rwa [hlen, List.append_assoc, List.singleton_append] at h
    have ho' : o ≤ a.length + 1 := Nat.le_succ_of_le ho
    cases z with
    | code =>
      rw [literalsFrom, quotedFrom]
      split
      · rw [hnext (Nat.le_succ _), List.drop_left]
      · rw [hnext ho']
        exact quotedFrom_code ..
    | guarded =>
      rw [literalsFrom, quotedFrom, hnext ho', hopened]
    | literal =>
      rw [literalsFrom, quotedFrom]
      split
      · rw [hnext ho', hopened]
      · split
        · have hclosed : Span.part ⟨o, a.length + 1⟩ (a ++ c :: t) = a.drop o ++ [c] := by
            have h := @part_append (a ++ [c]) t o (by omega)
            rwa [hlen, hopened, List.append_assoc, List.singleton_append] at h
          rw [List.map_cons, hnext ho', hclosed, quotedFrom_code _ []]
        · rw [hnext ho', hopened]

theorem literalTexts_eq (t : Text) : literalTexts t = quotedFrom [] .code t :=
  map_part_literalsFrom (a := []) (Nat.zero_le _)

/-! ## What the replaced names do not show in -/

section Pieces

variable {t : Table} {owner code : Text}

theorem add_length_le_of_drop_eq {i : Nat} {w rest : Text} (hdrop : code.drop i = w ++ rest)
    (hw : w ≠ []) : i + w.length ≤ code.length := by
  have hlen := congrArg List.length hdrop
  have hpos := List.length_pos_iff.2 hw
  rw [List.length_drop, List.length_append] at hlen
  omega

/-- Every name ends in front of the last character of the code. -/
theorem IsRename.lt_length {k : Nat} {old new : Text} (h : IsRename t owner code k old new) :
    k + old.length < code.length := by
  cases h with
  | @ofClass i n name hfind =>
    obtain ⟨rest, hdrop, -, -⟩ := type?_eq_some_iff.1 hfind
    have htoken : code.drop i = ('L' :: (old ++ [';'])) ++ rest := by
      rw [hdrop]
      simp
    have := add_length_le_of_drop_eq htoken (List.cons_ne_nil _ _)
    simp only [List.length_cons, List.length_append, List.length_nil] at this
    omega
  | @ofOwner i n r hfind =>
    obtain ⟨signature, rest, hdrop, -, -⟩ := reference?_eq_some_iff.1 hfind
    have := add_length_le_of_drop_eq hdrop (List.cons_ne_nil _ _)
    rw [Reference.length_text] at this
    omega
  | @ofMember i n r hfind =>
    obtain ⟨signature, rest, hdrop, hr, -⟩ := reference?_eq_some_iff.1 hfind
    have := add_length_le_of_drop_eq hdrop (List.cons_ne_nil _ _)
    have hpos := hr.signature.length_pos
    rw [Reference.length_text] at this
    omega
  | ofField hd =>
    obtain ⟨indent, gap, b, rest, hcode, hplace, -⟩ := fieldDefinition?_eq_some hd
    rw [hcode, hplace]
    simp only [List.length_append, List.length_cons]
    omega
  | ofMethod hd =>
    obtain ⟨indent, gap, b, rest, hcode, hplace, -⟩ := methodDefinition?_eq_some hd
    rw [hcode, hplace]
    simp only [List.length_append, List.length_cons]
    omega

variable {k : Nat} {z : Zone} {ps : List Piece}

/-- The last character is never part of a name. -/
theorem getLast?_textOf (h : Sound (Replaces t owner code) k z ps)
    (hcode : code.length = k + (sourceOf ps).length) :
    (textOf ps).getLast? = (sourceOf ps).getLast? := by
  induction ps generalizing k z with
  | nil => rfl
  | cons p ps ih =>
    cases p with
    | kept c =>
      rw [sourceOf_kept, List.length_cons] at hcode
      rw [textOf_kept, sourceOf_kept, List.getLast?_cons, List.getLast?_cons,
        ih h (by omega)]
    | replaced old new =>
      obtain ⟨hP, h⟩ := h
      rw [sourceOf_replaced, List.length_append] at hcode
      have hne : sourceOf ps ≠ [] := by
        intro hnil
        have := hP.rename.lt_length
        rw [hnil, List.length_nil] at hcode
        omega
      have hlast := ih h (by omega)
      rw [textOf_replaced, sourceOf_replaced, List.getLast?_append, List.getLast?_append, hlast,
        List.getLast?_eq_some_getLast hne, Option.some_or, Option.some_or]

/-- No number sign that comes to stand in code starts a comment. -/
theorem uncommented_textOf (hquote : t.QuoteFree) (hsharp : t.FreeOf '#')
    (h : Sound (Replaces t owner code) k z ps) (hps : Uncommented z (sourceOf ps)) :
    Uncommented z (textOf ps) := by
  induction ps generalizing k z with
  | nil => exact hps
  | cons p ps ih =>
    cases p with
    | kept c =>
      rw [sourceOf_kept, uncommented_cons] at hps
      rw [textOf_kept, uncommented_cons]
      exact ⟨hps.1, ih h hps.2⟩
    | replaced old new =>
      obtain ⟨hP, h⟩ := h
      obtain rfl := hP.zone
      have hnew : '"' ∉ new := hP.rename.notMem hquote hP.quote
      rw [Zone.after_code hP.quote] at h
      rw [sourceOf_replaced, uncommented_append, uncommented_code_iff hP.quote,
        Zone.after_code hP.quote] at hps
      rw [textOf_replaced, uncommented_append, uncommented_code_iff hnew, Zone.after_code hnew]
      exact ⟨hP.rename.notMem hsharp hps.1, ih h hps.2⟩

/-- What stands in literals is kept, and nothing else comes to stand in one. -/
theorem quotedFrom_textOf (hquote : t.QuoteFree) (h : Sound (Replaces t owner code) k z ps)
    (o : Text) : quotedFrom o z (textOf ps) = quotedFrom o z (sourceOf ps) := by
  induction ps generalizing k z o with
  | nil => rfl
  | cons p ps ih =>
    cases p with
    | kept c =>
      rw [textOf_kept, sourceOf_kept]
      exact quotedFrom_cons_congr (ih h) o
    | replaced old new =>
      obtain ⟨hP, h⟩ := h
      obtain rfl := hP.zone
      rw [Zone.after_code hP.quote] at h
      rw [textOf_replaced, sourceOf_replaced, quotedFrom_append_of_notMem hP.quote,
        quotedFrom_append_of_notMem (hP.rename.notMem hquote hP.quote)]
      exact ih h o

end Pieces

/-! ## Lines and texts -/

section Lines

variable {t : Table} {owner line : Text} {l : Line}
  (hl : Progress t owner (lineParts line).code l)

include hl

/-- A line whose code is on its way through the passes is taken apart where it was before. -/
theorem Progress.lineParts_text (hquote : t.QuoteFree) (hsharp : t.FreeOf '#') :
    lineParts (l.text ++ (lineParts line).comment ++ (lineParts line).ending) =
      ⟨l.text, (lineParts line).comment, (lineParts line).ending⟩ := by
  have hsource : sourceOf l.pieces = (lineParts line).code := hl.source
  apply lineParts_append
  · apply uncommented_textOf hquote hsharp hl.sound
    rw [hsource]
    exact uncommented_lineParts line
  · have hzone : Zone.code.after l.text = Zone.code.after (lineParts line).code := by
      rw [← hsource]
      exact after_textOf hquote hl.sound
    rw [hzone]
    exact splitFrom_lineParts line
  · refine (ending_lineParts line).imp_right fun ⟨hending, hlast⟩ => ⟨hending, ?_⟩
    have hgetLast : l.text.getLast? = (lineParts line).code.getLast? := by
      rw [← hsource]
      exact getLast?_textOf hl.sound (by rw [hsource, Nat.zero_add])
    rw [List.getLast?_append] at hlast ⊢
    rwa [hgetLast]

theorem Progress.intact (hquote : t.QuoteFree) (hsharp : t.FreeOf '#') :
    Intact line (l.text ++ (lineParts line).comment ++ (lineParts line).ending) := by
  have hparts := hl.lineParts_text hquote hsharp
  have hliterals : quotedFrom [] .code l.text = quotedFrom [] .code (lineParts line).code := by
    rw [← hl.source]
    exact quotedFrom_textOf hquote hl.sound []
  refine ⟨by rw [hparts], by rw [hparts], ?_⟩
  rw [hparts, literalTexts_eq, literalTexts_eq]
  exact hliterals

/-- It also remains one line. -/
theorem Progress.sourceLines_text (hfeed : t.FreeOf '\n') (hline : '\n' ∉ line) :
    sourceLines (l.text ++ (lineParts line).comment ++ (lineParts line).ending) =
      [l.text ++ (lineParts line).comment ++ (lineParts line).ending] := by
  apply Text.splitOn_of_notMem
  rw [← append_lineParts line] at hline
  simp only [List.mem_append, not_or] at hline ⊢
  refine ⟨⟨?_, hline.1.2⟩, hline.2⟩
  exact hl.notMem_text hfeed hline.1.1

end Lines

/-- Without a line feed in a new name, lines stay lines. -/
theorem sourceLines_rename_of_freeOf {t : Table} (hquote : t.QuoteFree) (hfeed : t.FreeOf '\n')
    {text owner : Text} (howner : findClassName text = some owner) :
    sourceLines (rename t text).text =
      (sourceLines text).map fun line => (renamedLine t owner line).1 := by
  rw [sourceLines_rename howner, ← List.flatMap_pure_eq_map]
  refine List.flatMap_congr fun line hline => ?_
  exact (progress_renameLine hquote owner (lineParts line).code).sourceLines_text hfeed
    (notMem_of_mem_sourceLines hline)

/-- **Literals, comments and line ends survive renaming.** The renamed text has as many lines as the
text, and each of them is intact. -/
theorem forall₂_intact {t : Table} (ht : ∀ c ∈ ['"', '#', '\n'], t.FreeOf c) (text : Text) :
    List.Forall₂ Intact (sourceLines text) (sourceLines (rename t text).text) := by
  have hquote : t.QuoteFree := ht '"' (by decide)
  have hsharp : t.FreeOf '#' := ht '#' (by decide)
  have hfeed : t.FreeOf '\n' := ht '\n' (by decide)
  cases howner : findClassName text with
  | none =>
    have hkept : (rename t text).text = text := by simp only [rename, howner]
    rw [hkept, List.forall₂_same]
    exact fun line _ => .refl line
  | some owner =>
    have hl := fun line => progress_renameLine hquote owner (lineParts line).code
    rw [sourceLines_rename_of_freeOf hquote hfeed howner, List.forall₂_map_right_iff, List.forall₂_same]
    exact fun line _ => (hl line).intact hquote hsharp

/-- A name in a literal, a name in a comment, a guarded quote, a literal that is not closed, and
line ends of both kinds. -/
theorem forall₂_intact_mixed :
    let t := Table.empty.addClass "a/b".toList "c/D".toList .null
    let text := ".class La/b;\r\nx \"\\\"La/b;#\" La/b; # \"La/b;\nx La/b; \"La/b;\r".toList
    (∀ c ∈ ['"', '#', '\n'], t.FreeOf c) ∧
      List.Forall₂ Intact (sourceLines text) (sourceLines (rename t text).text) ∧
      (rename t text).text =
        ".class Lc/D;\r\nx \"\\\"La/b;#\" Lc/D; # \"La/b;\nx Lc/D; \"La/b;\r".toList := by
  intro t text
  have ht : ∀ c ∈ ['"', '#', '\n'], t.FreeOf c := by
    rw [List.forall_mem_cons, List.forall_mem_cons, List.forall_mem_singleton]
    decide
  exact ⟨ht, forall₂_intact ht text, by decide +kernel⟩

end Assembly

end Renaming
