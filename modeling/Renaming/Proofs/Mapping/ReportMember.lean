import Renaming.Mapping.Load
import Renaming.Proofs.Mapping.Owner
import Renaming.Proofs.Mapping.Paired
import Renaming.Proofs.Mapping.Tiered
import Renaming.Proofs.Symbol.Display

/-!
# `Proofs/Mapping/ReportMember` — the row of a member in a report

A report shows a member as source code does, in readable names, with line numbers in front of it and
behind its parameters. The pattern that the reader has for such a row finds the parts that it was
made of (`memberRow?_row`): a plain type holds no blank, no colon and no parenthesis but those
around the parameters, so each of them can only be read in one way. What the reader notes of the
member is its row in a notation of many names, with its types as they are in the report
(`proguardStep_member`).
-/

set_option autoImplicit false

namespace Renaming

namespace Mapping

/-! ## Members and their rows -/

/-- A field or method as a report shows it. Line numbers may stand in front of every member and
behind the parameters of a method. -/
structure ReportMember where
  type : MemberType
  readable : Text
  obfuscated : Text
  range : Option (Text × Text)
  numbers : List Text
deriving DecidableEq, Repr

def ReportMember.kind (x : ReportMember) : MemberKind :=
  if x.type.parameters.isSome then .method else .field

/-- The member with its names, and with other names for the classes of its descriptor. -/
def ReportMember.tiered (rename : Text → Text) (x : ReportMember) : TieredMember :=
  ⟨x.kind, x.type.descriptor rename, x.obfuscated, [x.readable]⟩

/-- Names are words without marks, and a readable one without a dot. -/
structure ReportMember.IsPlain (x : ReportMember) : Prop where
  type : x.type.IsPlain
  readable : x.readable.IsWordWithout DisplayType.marks
  noDot : '.' ∉ x.readable
  obfuscated : x.obfuscated.IsWordWithout DisplayType.marks
  range : ∀ p ∈ x.range, p.1.IsNumber ∧ p.2.IsNumber
  numbers : x.numbers.length ≤ 2 ∧ ∀ n ∈ x.numbers, n.IsNumber
  parameters : x.type.parameters = none → x.numbers = []

/-- The line numbers in front of a member, each with a colon behind it. -/
def ReportMember.front (x : ReportMember) : Text :=
  match x.range with
  | none => []
  | some (first, last) => first ++ ':' :: (last ++ [':'])

/-- The parameter types of a method in parentheses. -/
def ReportMember.arguments (x : ReportMember) : Text :=
  match x.type.parameters with
  | none => []
  | some ps => '(' :: (Text.joinWith ',' (ps.map DisplayType.text) ++ [')'])

/-- The line numbers behind a method, each with a colon in front of it. -/
def ReportMember.rear (x : ReportMember) : Text := x.numbers.flatMap fun n => ':' :: n

def ReportMember.row (indent : Text) (x : ReportMember) : Text :=
  indent ++ wordRow [x.front ++ x.type.type.text, x.readable ++ (x.arguments ++ x.rear),
    ['-', '>'], x.obfuscated]

/-! ## Line numbers -/

section Numbers

theorem isDecimalDigit_colon : Text.isDecimalDigit ':' = false := by decide

theorem dropLineNumber?_append {n : Text} (hn : n.IsNumber) (t : Text) :
    ProGuard.dropLineNumber? (n ++ ':' :: t) = some t := by
  have hspan : (n ++ ':' :: t).span Text.isDecimalDigit = (n, ':' :: t) := by
    apply Text.span_append hn.2
    rintro c ⟨⟩
    exact isDecimalDigit_colon
  unfold ProGuard.dropLineNumber?
  rw [hspan]
  cases n with
  | nil => exact absurd rfl hn.1
  | cons c n => rfl

theorem dropLineNumber?_of_notMem {t : Text} (h : ':' ∉ t) : ProGuard.dropLineNumber? t = none := by
  unfold ProGuard.dropLineNumber?
  split
  · rename_i heq
    rw [List.span_eq_takeWhile_dropWhile, Prod.mk.injEq] at heq
    have hmem : ':' ∈ t.dropWhile Text.isDecimalDigit := by
      rw [heq.2]
      exact List.mem_cons_self
    exact absurd ((List.dropWhile_sublist _).subset hmem) h
  · rfl

/-- What stands in front of the type is taken off, and nothing of a type without it. -/
theorem dropLineRange_front {x : ReportMember} (hx : x.IsPlain) :
    ProGuard.dropLineRange (x.front ++ x.type.type.text) = x.type.type.text := by
  have htext : x.type.type.text ≠ [] := (DisplayType.isField_text hx.type.type).1
  unfold ReportMember.front
  cases hrange : x.range with
  | none =>
    have hcolon : ':' ∉ x.type.type.text :=
      DisplayType.notMem_text hx.type.type (by decide) (by decide)
    unfold ProGuard.dropLineRange
    rw [List.nil_append, dropLineNumber?_of_notMem hcolon]
    rfl
  | some p =>
    obtain ⟨hfirst, hlast⟩ := hx.range p (by rw [hrange]; rfl)
    unfold ProGuard.dropLineRange
    dsimp only
    rw [List.append_assoc, List.cons_append, dropLineNumber?_append hfirst, List.append_assoc,
      List.cons_append, List.nil_append, Option.bind_some, dropLineNumber?_append hlast]
    cases h : x.type.type.text with
    | nil => exact absurd h htext
    | cons c r => rfl

theorem dropColonNumber_append {n : Text} (hn : n.IsNumber) {t : Text}
    (ht : ∀ c ∈ t.head?, Text.isDecimalDigit c = false) :
    ProGuard.dropColonNumber (':' :: (n ++ t)) = t := by
  simp only [ProGuard.dropColonNumber, Text.span_append hn.2 ht]
  cases n with
  | nil => exact absurd rfl hn.1
  | cons c n => rfl

/-- What stands behind the parentheses is taken off, up to two numbers. -/
theorem dropColonNumber_rear {numbers : List Text} (hlength : numbers.length ≤ 2)
    (hnumbers : ∀ n ∈ numbers, n.IsNumber) (t : Text) :
    ProGuard.dropColonNumber (ProGuard.dropColonNumber
      ((numbers.flatMap fun n => ':' :: n) ++ ' ' :: t)) = ' ' :: t := by
  have hblank : ∀ c ∈ (' ' :: t).head?, Text.isDecimalDigit c = false := by
    rintro c ⟨⟩
    decide
  match numbers, hlength with
  | [], _ => rfl
  | [n], _ =>
    have hn := hnumbers n List.mem_cons_self
    rw [List.flatMap_cons, List.flatMap_nil, List.append_nil, List.cons_append,
      dropColonNumber_append hn hblank]
    rfl
  | [n, n'], _ =>
    have hn := hnumbers n List.mem_cons_self
    have hn' := hnumbers n' (List.mem_cons_of_mem _ List.mem_cons_self)
    have hnext : ∀ c ∈ (':' :: (n' ++ ' ' :: t)).head?, Text.isDecimalDigit c = false := by
      rintro c ⟨⟩
      exact isDecimalDigit_colon
    have hrear : ([n, n'].flatMap fun n => ':' :: n) ++ ' ' :: t =
        ':' :: (n ++ ':' :: (n' ++ ' ' :: t)) := by simp
    rw [hrear, dropColonNumber_append hn hnext, dropColonNumber_append hn' hblank]

end Numbers

/-! ## Pieces of a row -/

theorem isBlankText_of_isIndent {indent : Text} (h : IsIndent indent) :
    Text.isBlankText indent = true := by
  rw [Text.isBlankText, List.all_eq_true]
  intro c hc
  rcases h.2 c hc with rfl | rfl <;> rfl

theorem startsWith_append_of_notMem {c : Char} {s : Text} (hs : s ≠ []) (hc : c ∉ s) (t : Text) :
    Text.startsWith [c] (s ++ t) = false := by
  cases s with
  | nil => exact absurd rfl hs
  | cons d s =>
    rw [List.mem_cons, not_or] at hc
    simp [Text.startsWith, List.isPrefixOf, hc.1]

/-- The types between parentheses are those that were written there. -/
theorem parameterTypes_joinWith {ps : List DisplayType} (hps : ∀ p ∈ ps, p.IsPlain) :
    ProGuard.parameterTypes (Text.joinWith ',' (ps.map DisplayType.text)) =
      ps.map DisplayType.text := by
  cases ps with
  | nil => rfl
  | cons p ps =>
    have hcomma : ∀ w ∈ (p :: ps).map DisplayType.text, ',' ∉ w := by
      intro w hw
      obtain ⟨q, hq, rfl⟩ := List.mem_map.1 hw
      exact DisplayType.notMem_text (hps q hq) (by decide) (by decide)
    have hsplit : Text.splitOn ',' (Text.joinWith ',' ((p :: ps).map DisplayType.text)) =
        (p :: ps).map DisplayType.text :=
      Text.splitOn_joinWith_of_notMem (List.cons_ne_nil _ _) hcomma
    have htrim : ((p :: ps).map DisplayType.text).map Text.trim = (p :: ps).map DisplayType.text := by
      rw [List.map_map]
      exact List.map_congr_left fun q hq => (DisplayType.isField_text (hps q hq)).trim_eq
    rw [ProGuard.parameterTypes, hsplit, htrim, List.filter_eq_self]
    intro w hw
    obtain ⟨q, hq, rfl⟩ := List.mem_map.1 hw
    have hne := (DisplayType.isField_text (hps q hq)).1
    rw [List.isEmpty_eq_false_iff.2 hne]
    rfl

/-! ## Reading a member -/

section Member

variable {x : ReportMember} (hx : x.IsPlain)

include hx

theorem isField_front : (x.front ++ x.type.type.text).IsField := by
  have htype := DisplayType.isField_text hx.type.type
  unfold ReportMember.front
  cases hrange : x.range with
  | none => exact htype
  | some p =>
    obtain ⟨hfirst, hlast⟩ := hx.range p (by rw [hrange]; rfl)
    rw [List.append_assoc]
    apply Text.isField_append hfirst.isField
    simp only [List.cons_append, List.append_assoc, List.nil_append, List.forall_mem_cons,
      List.forall_mem_append]
    exact ⟨by decide, hlast.isField.2, by decide, htype.2⟩

theorem isBlank_arguments : ∀ c ∈ x.arguments ++ x.rear, Text.isBlank c = false := by
  have hrear : ∀ c ∈ x.rear, Text.isBlank c = false := by
    intro c hc
    obtain ⟨n, hn, hcn⟩ := List.mem_flatMap.1 hc
    rcases List.mem_cons.1 hcn with rfl | hcn
    · decide
    · exact (hx.numbers.2 n hn).isField.2 c hcn
  rw [List.forall_mem_append]
  refine ⟨?_, hrear⟩
  unfold ReportMember.arguments
  cases hps : x.type.parameters with
  | none => exact fun _ h => nomatch h
  | some ps =>
    have htexts : ∀ w ∈ ps.map DisplayType.text, ∀ c ∈ w, Text.isBlank c = false := by
      intro w hw
      obtain ⟨p, hp, rfl⟩ := List.mem_map.1 hw
      exact (DisplayType.isField_text (hx.type.parameters ps hps p hp)).2
    simp only [List.forall_mem_cons, List.forall_mem_append, List.not_mem_nil, false_implies,
      implies_true, and_true]
    exact ⟨by decide, Text.forall_mem_joinWith (by decide) htexts, by decide⟩

theorem isField_words : ∀ w ∈ [x.front ++ x.type.type.text, x.readable ++ (x.arguments ++ x.rear),
    ['-', '>'], x.obfuscated], w.IsField := by
  simp only [List.forall_mem_cons, List.not_mem_nil, false_implies, implies_true, and_true]
  exact ⟨isField_front hx, Text.isField_append hx.readable.1 (isBlank_arguments hx), by decide,
    hx.obfuscated.1⟩

/-- The parameters are found between the parentheses, and a field has none. -/
theorem parameters?_arguments (t : Text) :
    ProGuard.parameters? (x.arguments ++ (x.rear ++ ' ' :: t)) =
      some (x.type.parameters.map fun ps => Text.joinWith ',' (ps.map DisplayType.text),
        x.rear ++ ' ' :: t) := by
  unfold ReportMember.arguments
  cases hps : x.type.parameters with
  | none =>
    have hrear : x.rear = [] := by rw [ReportMember.rear, hx.parameters hps]; rfl
    rw [hrear]
    rfl
  | some ps =>
    have htexts : ∀ w ∈ ps.map DisplayType.text, ∀ c ∈ w, c ≠ ')' := by
      rintro w hw c hc rfl
      obtain ⟨p, hp, rfl⟩ := List.mem_map.1 hw
      exact DisplayType.notMem_text (hx.type.parameters ps hps p hp) (by decide) (by decide) hc
    have hparen : ')' ∉ Text.joinWith ',' (ps.map DisplayType.text) :=
      fun h => Text.forall_mem_joinWith (by decide) htexts ')' h rfl
    have hcut : Text.cut ')' (Text.joinWith ',' (ps.map DisplayType.text) ++
        ')' :: (x.rear ++ ' ' :: t)) = some (_, x.rear ++ ' ' :: t) :=
      Text.cut_eq_some_iff.2 ⟨rfl, hparen⟩
    simp only [List.cons_append, List.append_assoc, List.nil_append, ProGuard.parameters?, hcut]
    rfl

omit hx in
/-- A member row from left to right: its type, its name, its parameters and numbers, the arrow. -/
theorem row_eq (indent : Text) :
    x.row indent = indent ++ ((x.front ++ x.type.type.text) ++ ' ' ::
      (x.readable ++ (x.arguments ++ (x.rear ++ ' ' :: (['-', '>'] ++ ' ' :: x.obfuscated))))) := by
  simp [ReportMember.row, wordRow, Text.joinWith]

theorem trimRight_row (indent : Text) : Text.trimRight (x.row indent) = x.row indent := by
  have hend : x.row indent = (indent ++ ((x.front ++ x.type.type.text) ++ ' ' ::
      (x.readable ++ (x.arguments ++ (x.rear ++ ' ' :: ['-', '>', ' ']))))) ++ x.obfuscated := by
    simp [row_eq]
  rw [hend, Text.trimRight_append _ hx.obfuscated.1]

/-- The type ends at the blank behind it. -/
theorem span_type (rest : Text) :
    ((x.front ++ x.type.type.text) ++ ' ' :: rest).span (fun c => !Text.isBlank c) =
      (x.front ++ x.type.type.text, ' ' :: rest) := by
  apply Text.span_append
  · intro c hc
    rw [(isField_front hx).2 c hc]
    rfl
  · rintro c ⟨⟩
    rfl

/-- A name ends at a parenthesis or, without parameters, at a blank. -/
theorem span_name (rest : Text) :
    (x.readable ++ (x.arguments ++ (x.rear ++ ' ' :: rest))).span
        (fun c => !Text.isBlank c && c != '(') =
      (x.readable, x.arguments ++ (x.rear ++ ' ' :: rest)) := by
  apply Text.span_append
  · intro c hc
    have hparen : c ≠ '(' := by
      rintro rfl
      exact hx.readable.2 '(' (by decide) hc
    simp [hx.readable.1.2 c hc, hparen]
  · unfold ReportMember.arguments
    cases hps : x.type.parameters with
    | none =>
      have hrear : x.rear = [] := by rw [ReportMember.rear, hx.parameters hps]; rfl
      rw [hrear]
      rintro c ⟨⟩
      rfl
    | some ps =>
      rintro c ⟨⟩
      rfl

/-- The obfuscated name stands behind the arrow. -/
theorem arrowTarget?_arrow :
    ProGuard.arrowTarget? (' ' :: (['-', '>'] ++ ' ' :: x.obfuscated)) = some x.obfuscated := by
  have hwords : ∀ w ∈ [['-', '>'], x.obfuscated], Text.IsField w := by
    simp only [List.forall_mem_cons, List.not_mem_nil, false_implies, implies_true, and_true]
    exact ⟨by decide, hx.obfuscated.1⟩
  have hblank : IsIndent [' '] := by simp [IsIndent]
  have hfields : Text.fields (' ' :: (['-', '>'] ++ ' ' :: x.obfuscated)) =
      [['-', '>'], x.obfuscated] := fields_indented hblank hwords
  simp only [ProGuard.arrowTarget?, hfields]
  rfl

/-- **A member row is read as it was written.** -/
theorem memberRow?_row {indent : Text} (hindent : IsIndent indent) :
    ProGuard.memberRow? (Text.trimRight (x.row indent)) =
      some ⟨x.type.type.text, x.readable,
        x.type.parameters.map fun ps => Text.joinWith ',' (ps.map DisplayType.text),
        x.obfuscated⟩ := by
  have hblanks := isBlankText_of_isIndent hindent
  rw [trimRight_row hx, row_eq]
  -- what stands behind the name has not to be looked into before the parameters are read
  generalize harrow : ['-', '>'] ++ ' ' :: x.obfuscated = arrow
  have htarget : ProGuard.arrowTarget? (' ' :: arrow) = some x.obfuscated :=
    harrow ▸ arrowTarget?_arrow hx
  have hleft : Text.trimLeft (' ' :: (x.readable ++ (x.arguments ++ (x.rear ++ ' ' :: arrow)))) =
      x.readable ++ (x.arguments ++ (x.rear ++ ' ' :: arrow)) :=
    Text.trimLeft_append (show Text.isBlankText [' '] = true from rfl) hx.readable.1
  obtain ⟨c, r, rfl⟩ := List.exists_cons_of_ne_nil hindent.1
  have hc : Text.isBlank c = true := Text.isBlank_of_mem hblanks List.mem_cons_self
  unfold ProGuard.memberRow?
  dsimp only
  rw [Text.trimLeft_append hblanks (isField_front hx), span_type hx, hleft, span_name hx]
  show (if (!Text.isBlank c) = true then none else _) = _
  rw [hc, if_neg (by decide)]
  split
  · rename_i heq
    exact absurd (congrArg Prod.fst heq) hx.readable.1.1
  · rename_i heq
    obtain ⟨rfl, rfl⟩ := Prod.mk.inj heq
    have hparameters := parameters?_arguments hx arrow
    have hrear := dropColonNumber_rear hx.numbers.1 hx.numbers.2 arrow
    rw [hparameters, Option.bind_eq_bind, Option.bind_some, ReportMember.rear, hrear, htarget,
      dropLineRange_front hx]
    rfl

/-- The descriptor of a member row is that of its types. -/
theorem descriptor_memberText :
    ProGuard.MemberText.descriptor ⟨x.type.type.text, x.readable,
      x.type.parameters.map fun ps => Text.joinWith ',' (ps.map DisplayType.text),
      x.obfuscated⟩ = x.type.descriptor id := by
  have htype := DisplayType.ofDisplay_text hx.type.type
  unfold ProGuard.MemberText.descriptor MemberType.descriptor
  cases hps : x.type.parameters with
  | none => exact htype
  | some ps =>
    have hplain := hx.type.parameters ps hps
    have hparameters : ProGuard.parameterTypes (Text.joinWith ',' (ps.map DisplayType.text)) =
        ps.map DisplayType.text := parameterTypes_joinWith hplain
    have hdescriptors : (ps.map DisplayType.text).flatMap Descriptor.ofDisplay =
        ps.flatMap (DisplayType.descriptor id) := by
      rw [List.flatMap_map]
      exact List.flatMap_congr fun p hp => DisplayType.ofDisplay_text (hplain p hp)
    dsimp only [Option.map_some]
    rw [hparameters, Descriptor.ofMethod, hdescriptors, htype]

/-- A member row is no comment. -/
theorem startsWith_row {indent : Text} (hindent : IsIndent indent) :
    Text.startsWith ['#'] (Text.trimLeft (x.row indent)) = false := by
  have hsign : '#' ∉ x.front ++ x.type.type.text := by
    rw [List.mem_append]
    rintro (h | h)
    · unfold ReportMember.front at h
      cases hrange : x.range with
      | none => rw [hrange] at h; cases h
      | some p =>
        obtain ⟨hfirst, hlast⟩ := hx.range p (by rw [hrange]; rfl)
        have hdigit : Text.isDecimalDigit '#' = false := by decide
        rw [hrange] at h
        simp only [List.mem_append, List.mem_cons, List.not_mem_nil, or_false] at h
        rcases h with h | h | h | h
        · exact absurd (hfirst.2 '#' h) (by rw [hdigit]; exact Bool.false_ne_true)
        · cases h
        · exact absurd (hlast.2 '#' h) (by rw [hdigit]; exact Bool.false_ne_true)
        · cases h
    · exact DisplayType.notMem_text hx.type.type (by decide) (by decide) h
  obtain ⟨rest, hrest⟩ := Text.exists_joinWith_eq_append ' ' (x.front ++ x.type.type.text)
    [x.readable ++ (x.arguments ++ x.rear), ['-', '>'], x.obfuscated]
  rw [ReportMember.row, wordRow, hrest,
    Text.trimLeft_append (isBlankText_of_isIndent hindent) (isField_front hx)]
  exact startsWith_append_of_notMem (isField_front hx).1 hsign rest

theorem isRow_row {indent : Text} (hindent : IsIndent indent) : (x.row indent).IsRow :=
  isRow_indented hindent (isField_words hx)

theorem proguardStep_member {indent : Text} (hindent : IsIndent indent) (m : Mapping)
    (obfuscated : OrderedMap Text Text) (owner : Text) (n : Nat) :
    proguardStep ⟨m, obfuscated, some owner⟩ (n, x.row indent) =
      .ok ⟨m.addMember owner (x.tiered id).row, obfuscated, some owner⟩ := by
  have hclass : ProGuard.classRow? (Text.trimRight (x.row indent)) = none := by
    have hmember := memberRow?_row hx hindent
    unfold ProGuard.memberRow? at hmember
    unfold ProGuard.classRow?
    split
    · rfl
    · rename_i c r heq
      rw [heq] at hmember
      dsimp only at hmember
      cases hc : Text.isBlank c with
      | true => rfl
      | false => rw [hc] at hmember; cases hmember
  unfold proguardStep
  dsimp only
  rw [startsWith_row hx hindent, if_neg Bool.false_ne_true, hclass]
  dsimp only
  rw [memberRow?_row hx hindent]
  dsimp only
  rw [if_neg hx.noDot, descriptor_memberText hx]
  unfold ReportMember.tiered ReportMember.kind
  cases x.type.parameters <;> rfl

end Member

end Mapping

end Renaming
