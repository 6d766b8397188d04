import Mathlib.Data.List.Basic
import Renaming.Assembly.Pattern

/-!
# `Proofs/Assembly/Shape` — what the recognised shapes look like

The recognisers of `Assembly/Pattern` walk over a text. Here each of them is put as a grammar: a
type, a reference and a definition are recognised exactly where the text is put together in one
way. Two consequences are what the passes live on:

* a shape is decided by its own characters, so it stays recognised whatever follows it
  (`type?_eq_some_iff`, `reference?_eq_some_iff`: the rest of the text is arbitrary);
* the places that `scan` answers hold the shape and do not run into each other
  (`find_of_mem_scan`, `pairwise_scan`).
-/

set_option autoImplicit false

namespace Renaming

namespace Assembly

/-! ## Runs -/

/-- A text of characters in `p` with at least one of them. -/
structure IsName (p : Char → Bool) (t : Text) : Prop where
  ne_nil : t ≠ []
  all : ∀ c ∈ t, p c = true

instance (p : Char → Bool) (t : Text) : Decidable (IsName p t) :=
  decidable_of_iff (t ≠ [] ∧ t.all p = true)
    ⟨fun h => ⟨h.1, List.all_eq_true.1 h.2⟩, fun h => ⟨h.ne_nil, List.all_eq_true.2 h.all⟩⟩

/-- A text in front of which a run of characters in `p` ends. -/
def Stops (p : Char → Bool) (t : Text) : Prop := ∀ c ∈ t.head?, p c = false

@[simp] theorem stops_nil (p : Char → Bool) : Stops p [] := by simp [Stops]

@[simp] theorem stops_cons {p : Char → Bool} {c : Char} {t : Text} :
    Stops p (c :: t) ↔ p c = false := by simp [Stops]

theorem stops_dropWhile (p : Char → Bool) (t : Text) : Stops p (t.dropWhile p) := by
  intro c hc
  have := List.head?_dropWhile_not p t
  rw [Option.mem_def.1 hc] at this
  simpa using this

theorem takeWhile_of_stops {p : Char → Bool} {a b : Text} (ha : ∀ c ∈ a, p c = true)
    (hb : Stops p b) : (a ++ b).takeWhile p = a := by
  rw [List.takeWhile_append_of_pos ha]
  cases b with
  | nil => simp
  | cons c r => rw [stops_cons] at hb; simp [hb]

theorem dropWhile_of_stops {p : Char → Bool} {a b : Text} (ha : ∀ c ∈ a, p c = true)
    (hb : Stops p b) : (a ++ b).dropWhile p = b := by
  rw [List.dropWhile_append_of_pos ha]
  cases b with
  | nil => rfl
  | cons c r => rw [stops_cons] at hb; simp [hb]

theorem of_mem_takeWhile {p : Char → Bool} {t : Text} {c : Char} (h : c ∈ t.takeWhile p) :
    p c = true := List.all_eq_true.1 List.all_takeWhile c h

theorem run?_eq_some_iff {p : Char → Bool} {t a b : Text} :
    run? p t = some (a, b) ↔ t = a ++ b ∧ IsName p a ∧ Stops p b := by
  have split : t.takeWhile p ++ t.dropWhile p = t := List.takeWhile_append_dropWhile
  constructor
  · intro h
    unfold run? at h
    split at h
    · cases h
    · rename_i c r hr
      simp only [Option.some.injEq, Prod.mk.injEq] at h
      obtain ⟨rfl, rfl⟩ := h
      rw [← hr]
      exact ⟨split.symm, ⟨by rw [hr]; simp, fun _ => of_mem_takeWhile⟩, stops_dropWhile p t⟩
  · rintro ⟨rfl, ha, hb⟩
    unfold run?
    rw [takeWhile_of_stops ha.all hb, dropWhile_of_stops ha.all hb]
    cases a with
    | nil => exact absurd rfl ha.ne_nil
    | cons c r => rfl

theorem after?_eq_some_iff {head t r : Text} : after? head t = some r ↔ t = head ++ r := by
  unfold after? Text.startsWith
  constructor
  · intro h
    split at h
    · rename_i hp
      obtain ⟨s, rfl⟩ := List.isPrefixOf_iff_prefix.1 hp
      simp only [List.drop_left, Option.some.injEq] at h
      rw [h]
    · cases h
  · rintro rfl
    rw [if_pos (List.isPrefixOf_iff_prefix.2 (List.prefix_append _ _)), List.drop_left]

/-! ## Scanning -/

section Scan

variable {α : Type} {find : Text → Option (α × Nat)}

/-- Characters to be passed over may as well be dropped first. -/
theorem scanFrom_skip (skip i : Nat) (t : Text) :
    scanFrom find skip i t = scanFrom find 0 (i + skip) (t.drop skip) := by
  induction skip generalizing i t with
  | zero => rfl
  | succ k ih =>
    cases t with
    | nil => simp [scanFrom]
    | cons c r => rw [scanFrom, ih, List.drop_succ_cons]; congr 1; omega

theorem scanFrom_none {c : Char} {r : Text} (h : find (c :: r) = none) (i : Nat) :
    scanFrom find 0 i (c :: r) = scanFrom find 0 (i + 1) r := by rw [scanFrom, h]

theorem scanFrom_some {a : α} {n : Nat} {w t : Text} (hw : w ≠ []) (hn : n = w.length)
    (h : find (w ++ t) = some (a, n)) (i : Nat) :
    scanFrom find 0 i (w ++ t) = (i, a, n) :: scanFrom find 0 (i + n) t := by
  cases w with
  | nil => exact absurd rfl hw
  | cons c r =>
    rw [List.cons_append] at h ⊢
    subst hn
    rw [scanFrom, h]
    simp only [List.length_cons, Nat.add_sub_cancel]
    rw [scanFrom_skip, List.drop_left]
    congr 2
    omega

/-- A shape that was found stands at its place, inside the text. -/
theorem find_of_mem_scanFrom {t : Text} {skip i p n : Nat} {a : α}
    (h : (p, a, n) ∈ scanFrom find skip i t) :
    i + skip ≤ p ∧ p < i + t.length ∧ find (t.drop (p - i)) = some (a, n) := by
  induction t generalizing skip i with
  | nil => cases skip <;> simp [scanFrom] at h
  | cons c r ih =>
    -- a shape found further on
    have later : ∀ {k : Nat}, (p, a, n) ∈ scanFrom find k (i + 1) r →
        i + 1 + k ≤ p ∧ p < i + (c :: r).length ∧ find ((c :: r).drop (p - i)) = some (a, n) := by
      intro k hk
      obtain ⟨h₁, h₂, h₃⟩ := ih hk
      refine ⟨h₁, by rw [List.length_cons]; omega, ?_⟩
      rwa [show p - i = (p - (i + 1)) + 1 by omega, List.drop_succ_cons]
    cases skip with
    | succ k =>
      obtain ⟨h₁, h₂⟩ := later h
      exact ⟨by omega, h₂⟩
    | zero =>
      rw [scanFrom] at h
      split at h
      · rename_i b m hf
        rcases List.mem_cons.1 h with e | h
        · simp only [Prod.mk.injEq] at e
          obtain ⟨rfl, rfl, rfl⟩ := e
          refine ⟨Nat.le_refl _, by simp, ?_⟩
          rw [Nat.sub_self, List.drop_zero, hf]
        · obtain ⟨h₁, h₂⟩ := later h
          exact ⟨by omega, h₂⟩
      · obtain ⟨h₁, h₂⟩ := later h
        exact ⟨by omega, h₂⟩

theorem find_of_mem_scan {t : Text} {p n : Nat} {a : α} (h : (p, a, n) ∈ scan find t) :
    p < t.length ∧ find (t.drop p) = some (a, n) := by
  obtain ⟨-, h₁, h₂⟩ := find_of_mem_scanFrom h
  exact ⟨by omega, by rwa [Nat.sub_zero] at h₂⟩

/-- Each shape that was found ends in front of the next one. -/
theorem pairwise_scanFrom (skip i : Nat) (t : Text) :
    (scanFrom find skip i t).Pairwise fun x y => x.1 + x.2.2 ≤ y.1 := by
  induction t generalizing skip i with
  | nil => cases skip <;> simp [scanFrom]
  | cons c r ih =>
    cases skip with
    | succ k => exact ih k (i + 1)
    | zero =>
      rw [scanFrom]
      split
      · rename_i a n _
        refine List.pairwise_cons.2 ⟨fun y hy => ?_, ih _ _⟩
        have := (find_of_mem_scanFrom (p := y.1) (a := y.2.1) (n := y.2.2) hy).1
        show i + n ≤ y.1
        omega
      · exact ih _ _

theorem pairwise_scan (t : Text) : (scan find t).Pairwise fun x y => x.1 + x.2.2 ≤ y.1 :=
  pairwise_scanFrom 0 0 t

end Scan

/-! ## Types -/

theorem isOwnerChar_of_isClassChar {c : Char} (h : isClassChar c = true) : isOwnerChar c = true :=
  (Bool.and_eq_true_iff.1 h).1

theorem type?_eq_some_iff {t name : Text} {n : Nat} :
    type? t = some (name, n) ↔
      ∃ rest, t = 'L' :: (name ++ ';' :: rest) ∧ IsName isClassChar name ∧ n = name.length + 2 := by
  constructor
  · intro h
    unfold type? at h
    split at h
    · rename_i r
      split at h
      · rename_i w s hr
        simp only [Option.some.injEq, Prod.mk.injEq] at h
        obtain ⟨rfl, rfl⟩ := h
        obtain ⟨rfl, hw, -⟩ := run?_eq_some_iff.1 hr
        exact ⟨s, rfl, hw, rfl⟩
      · cases h
    · cases h
  · rintro ⟨rest, rfl, hname, rfl⟩
    have : run? isClassChar (name ++ ';' :: rest) = some (name, ';' :: rest) :=
      run?_eq_some_iff.2 ⟨rfl, hname, stops_cons.2 (by decide)⟩
    simp only [type?, this]

/-- The types that a field or a result may have: brackets, then a letter or a class. -/
inductive IsResult (primitives : List Char) : Text → Prop
  | ofPrimitive (k : Nat) {c : Char} (h : c ∈ primitives) :
      IsResult primitives (List.replicate k '[' ++ [c])
  | ofClass (k : Nat) {name : Text} (h : IsName isResultChar name) :
      IsResult primitives (List.replicate k '[' ++ 'L' :: (name ++ [';']))

theorem takeWhile_bracket (t : Text) :
    t.takeWhile (· == '[') = List.replicate (t.takeWhile (· == '[')).length '[' :=
  List.eq_replicate_iff.2 ⟨rfl, fun c hc => by simpa using of_mem_takeWhile hc⟩

theorem result?_eq_some_iff {ps : List Char} (hL : 'L' ∉ ps) (hb : '[' ∉ ps) {t s : Text} :
    result? ps t = some s ↔ ∃ rest, t = s ++ rest ∧ IsResult ps s := by
  have split : t.takeWhile (· == '[') ++ t.dropWhile (· == '[') = t :=
    List.takeWhile_append_dropWhile
  constructor
  · intro h
    unfold result? at h
    rw [takeWhile_bracket] at h split
    split at h
    · rename_i r hr
      split at h
      · rename_i name rest hn
        simp only [Option.some.injEq] at h
        subst h
        obtain ⟨rfl, hname, -⟩ := run?_eq_some_iff.1 hn
        refine ⟨rest, ?_, ?_⟩
        · conv_lhs => rw [← split, hr]
          simp
        · rw [List.append_assoc, List.cons_append]
          exact .ofClass _ hname
      · cases h
    · rename_i c r _ hr
      split at h
      · rename_i hc
        simp only [Option.some.injEq] at h
        subst h
        refine ⟨r, ?_, .ofPrimitive _ (by simpa using hc)⟩
        conv_lhs => rw [← split, hr]
        simp
      · cases h
    · cases h
  · rintro ⟨rest, rfl, hs⟩
    have brackets : ∀ (k : Nat), ∀ c ∈ List.replicate k '[', (c == '[') = true := by
      intro k c hc
      simp [List.eq_of_mem_replicate hc]
    cases hs with
    | @ofPrimitive k c hc =>
      have hne : c ≠ '[' := fun e => hb (e ▸ hc)
      have hl : c ≠ 'L' := fun e => hL (e ▸ hc)
      have hstop : Stops (· == '[') (c :: rest) := by simpa using hne
      unfold result?
      rw [List.append_assoc, List.singleton_append, takeWhile_of_stops (brackets k) hstop,
        dropWhile_of_stops (brackets k) hstop]
      split
      · rename_i e
        exact absurd (List.cons.inj e).1 hl
      · rename_i e
        obtain ⟨rfl, rfl⟩ := List.cons.inj e
        simp [hc]
      · rename_i e
        cases e
    | @ofClass k name hname =>
      have hstop : Stops (· == '[') ('L' :: (name ++ ';' :: rest)) := by simp
      have hrun : run? isResultChar (name ++ ';' :: rest) = some (name, ';' :: rest) :=
        run?_eq_some_iff.2 ⟨rfl, hname, stops_cons.2 (by decide)⟩
      unfold result?
      rw [List.append_assoc, List.cons_append, List.append_assoc, List.singleton_append,
        takeWhile_of_stops (brackets k) hstop, dropWhile_of_stops (brackets k) hstop]
      simp [hrun]

/-! ## References -/

/-- What stands behind the name in a reference, with the descriptor of a method. -/
inductive IsSignature : Option Text → Text → Prop
  | ofMethod {parameters result : Text} (hp : ∀ c ∈ parameters, isParameterChar c = true)
      (hr : IsResult ('V' :: primitives) result) :
      IsSignature (some ('(' :: (parameters ++ ')' :: result)))
        ('(' :: (parameters ++ ')' :: result))
  | ofField {type : Text} (h : IsResult primitives type) : IsSignature none (':' :: type)

theorem signature?_eq_some_iff {t : Text} {d : Option Text} {n : Nat} :
    signature? t = some (d, n) ↔ ∃ s rest, t = s ++ rest ∧ IsSignature d s ∧ n = s.length := by
  constructor
  · intro h
    unfold signature? at h
    split at h
    · rename_i r
      split at h
      · rename_i rest hr
        simp only [Option.map_eq_some_iff, Prod.mk.injEq] at h
        obtain ⟨result, hres, rfl, rfl⟩ := h
        obtain ⟨rest', rfl, hresult⟩ :=
          (result?_eq_some_iff (by decide) (by decide)).1 hres
        have split : r.takeWhile isParameterChar ++ r.dropWhile isParameterChar = r :=
          List.takeWhile_append_dropWhile
        refine ⟨_, rest', ?_, .ofMethod (fun _ => of_mem_takeWhile) hresult, rfl⟩
        conv_lhs => rw [← split, hr]
        simp
      · cases h
    · rename_i r
      simp only [Option.map_eq_some_iff, Prod.mk.injEq] at h
      obtain ⟨type, htype, rfl, rfl⟩ := h
      obtain ⟨rest, rfl, h⟩ := (result?_eq_some_iff (by decide) (by decide)).1 htype
      exact ⟨':' :: type, rest, rfl, .ofField h, rfl⟩
    · cases h
  · rintro ⟨s, rest, rfl, hs, rfl⟩
    cases hs with
    | @ofMethod parameters result hp hr =>
      have hstop : Stops isParameterChar (')' :: (result ++ rest)) := stops_cons.2 (by decide)
      have hres := (result?_eq_some_iff (t := result ++ rest) (by decide) (by decide)).2
        ⟨rest, rfl, hr⟩
      simp only [List.cons_append, List.append_assoc, signature?]
      rw [dropWhile_of_stops hp hstop, takeWhile_of_stops hp hstop]
      simp [hres]
    | @ofField type h =>
      have hres := (result?_eq_some_iff (t := type ++ rest) (by decide) (by decide)).2
        ⟨rest, rfl, h⟩
      simp [signature?, hres]

/-- The parts of a reference, with what stands behind its name. -/
structure IsReference (r : Reference) (signature : Text) : Prop where
  owner : IsName isOwnerChar r.owner
  name : IsName isMemberChar r.name
  signature : IsSignature r.descriptor signature

def Reference.text (r : Reference) (signature : Text) : Text :=
  'L' :: (r.owner ++ ';' :: '-' :: '>' :: (r.name ++ signature))

theorem Reference.length_text (r : Reference) (signature : Text) :
    (r.text signature).length = r.owner.length + r.name.length + signature.length + 4 := by
  simp only [Reference.text, List.length_cons, List.length_append]
  omega

theorem IsSignature.length_pos {d : Option Text} {s : Text} (h : IsSignature d s) :
    0 < s.length := by
  cases h <;> exact Nat.succ_pos _

theorem IsSignature.stops {d : Option Text} {s : Text} (h : IsSignature d s) (rest : Text) :
    Stops isMemberChar (s ++ rest) := by
  cases h <;> exact stops_cons.2 (by decide)

theorem reference?_eq_some_iff {t : Text} {r : Reference} {n : Nat} :
    reference? t = some (r, n) ↔
      ∃ signature rest, t = r.text signature ++ rest ∧ IsReference r signature ∧
        n = (r.text signature).length := by
  constructor
  · intro h
    unfold reference? at h
    split at h
    · rename_i u
      split at h
      · rename_i owner v ho
        split at h
        · rename_i name s hn
          simp only [Option.map_eq_some_iff, Prod.exists, Prod.mk.injEq] at h
          obtain ⟨d, m, hs, rfl, rfl⟩ := h
          obtain ⟨rfl, howner, -⟩ := run?_eq_some_iff.1 ho
          obtain ⟨rfl, hname, -⟩ := run?_eq_some_iff.1 hn
          obtain ⟨signature, rest, rfl, hsig, rfl⟩ := signature?_eq_some_iff.1 hs
          refine ⟨signature, rest, by simp [Reference.text], ⟨howner, hname, hsig⟩, ?_⟩
          rw [Reference.length_text]
        · cases h
      · cases h
    · cases h
  · rintro ⟨signature, rest, rfl, hr, rfl⟩
    have ho : run? isOwnerChar (r.owner ++ ';' :: '-' :: '>' :: (r.name ++ (signature ++ rest))) =
        some (r.owner, ';' :: '-' :: '>' :: (r.name ++ (signature ++ rest))) :=
      run?_eq_some_iff.2 ⟨rfl, hr.owner, stops_cons.2 (by decide)⟩
    have hn : run? isMemberChar (r.name ++ (signature ++ rest)) =
        some (r.name, signature ++ rest) :=
      run?_eq_some_iff.2 ⟨rfl, hr.name, hr.signature.stops rest⟩
    have hs : signature? (signature ++ rest) = some (r.descriptor, signature.length) :=
      signature?_eq_some_iff.2 ⟨signature, rest, rfl, hr.signature, rfl⟩
    rw [Reference.length_text]
    simp [Reference.text, reference?, ho, hn, hs]

/-! ## Definitions -/

/-- What stands between a directive and the name it defines: flags and blanks, a blank last. -/
structure IsLead (gap : Text) (b : Char) : Prop where
  gap : ∀ c ∈ gap, Text.isBlank c = true ∨ Text.isWord c = true ∨ c = '-'
  blank : Text.isBlank b = true

/-- Blanks alone may stand between a directive and the name. -/
theorem exists_isLead_of_isName {t : Text} (h : IsName Text.isBlank t) :
    ∃ gap b, t = gap ++ [b] ∧ IsLead gap b := by
  refine ⟨t.dropLast, t.getLast h.ne_nil, (List.dropLast_append_getLast h.ne_nil).symm, ?_, ?_⟩
  · exact fun c hc => .inl (h.all c (List.dropLast_subset t hc))
  · exact h.all _ (List.getLast_mem h.ne_nil)

/-- Flags, if there are any, end with a blank. -/
theorem flagsLength_eq (fuel : Nat) (t : Text) :
    ∃ flags rest, t = flags ++ rest ∧ flagsLength fuel t = flags.length ∧
      (flags = [] ∨ ∃ gap b, flags = gap ++ [b] ∧ IsLead gap b) := by
  induction fuel generalizing t with
  | zero => exact ⟨[], t, rfl, rfl, .inl rfl⟩
  | succ fuel ih =>
    rw [flagsLength]
    split
    · rename_i word u hw
      obtain ⟨rfl, hword, -⟩ := run?_eq_some_iff.1 hw
      split
      · rename_i blanks v hb
        obtain ⟨rfl, hblanks, -⟩ := run?_eq_some_iff.1 hb
        obtain ⟨flags, rest, rfl, hlen, hflags⟩ := ih v
        refine ⟨word ++ (blanks ++ flags), rest, by simp, ?_, .inr ?_⟩
        · rw [hlen]; simp only [List.length_append]; omega
        · have hchar : ∀ c ∈ word, Text.isBlank c = true ∨ Text.isWord c = true ∨ c = '-' :=
            fun c hc => .inr (by simpa using hword.all c hc)
          rcases hflags with rfl | ⟨gap, b, rfl, hlead⟩
          · obtain ⟨gap, b, rfl, hlead⟩ := exists_isLead_of_isName hblanks
            refine ⟨word ++ gap, b, by simp, fun c hc => ?_, hlead.blank⟩
            rcases List.mem_append.1 hc with hc | hc
            · exact hchar c hc
            · exact hlead.gap c hc
          · refine ⟨word ++ (blanks ++ gap), b, by simp, fun c hc => ?_, hlead.blank⟩
            rcases List.mem_append.1 hc with hc | hc
            · exact hchar c hc
            · rcases List.mem_append.1 hc with hc | hc
              · exact .inl (hblanks.all c hc)
              · exact hlead.gap c hc
      · exact ⟨[], _, rfl, rfl, .inl rfl⟩
    · exact ⟨[], t, rfl, rfl, .inl rfl⟩

/-- The part of a line up to the name that a directive defines. -/
def definitionLead (indent directive gap : Text) (b : Char) : Text :=
  indent ++ (directive ++ (gap ++ [b]))

theorem afterDirective?_eq_some {directive line r : Text} {place : Nat}
    (h : afterDirective? directive line = some (place, r)) :
    ∃ indent gap b, line = definitionLead indent directive gap b ++ r ∧
      place = (definitionLead indent directive gap b).length ∧
      (∀ c ∈ indent, Text.isBlank c = true) ∧ IsLead gap b := by
  unfold afterDirective? at h
  simp only [Option.bind_eq_bind, Option.bind_eq_some_iff, Option.pure_def, Option.some.injEq,
    Prod.mk.injEq] at h
  obtain ⟨t, ht, ⟨blanks, u⟩, hu, hplace, hr⟩ := h
  rw [after?_eq_some_iff] at ht
  obtain ⟨rfl, hblanks, -⟩ := run?_eq_some_iff.1 hu
  obtain ⟨flags, rest, rfl, hlen, hflags⟩ := flagsLength_eq u.length u
  dsimp only at hplace hr
  rw [hlen] at hplace hr
  rw [List.drop_left] at hr
  subst hr hplace
  have hline : line =
      line.takeWhile Text.isBlank ++ (directive ++ (blanks ++ (flags ++ rest))) := by
    have h₁ : line.drop (line.takeWhile Text.isBlank).length = line.dropWhile Text.isBlank := by
      conv_lhs => rw [← List.takeWhile_append_dropWhile (p := Text.isBlank) (l := line)]
      rw [List.drop_append, List.takeWhile_append_dropWhile, Nat.sub_self, List.drop_zero,
        List.drop_length, List.nil_append]
    conv_lhs => rw [← List.takeWhile_append_dropWhile (p := Text.isBlank) (l := line), ← h₁, ht]
  have hindent : ∀ c ∈ line.takeWhile Text.isBlank, Text.isBlank c = true :=
    fun _ => of_mem_takeWhile
  rcases hflags with rfl | ⟨gap, b, rfl, hlead⟩
  · obtain ⟨gap, b, rfl, hlead⟩ := exists_isLead_of_isName hblanks
    refine ⟨_, gap, b, ?_, ?_, hindent, hlead⟩
    · conv_lhs => rw [hline]
      simp [definitionLead]
    · simp only [definitionLead, List.length_append, List.length_nil, List.length_cons]
      omega
  · refine ⟨_, blanks ++ gap, b, ?_, ?_, hindent, fun c hc => ?_, hlead.blank⟩
    · conv_lhs => rw [hline]
      simp [definitionLead]
    · simp only [definitionLead, List.length_append, List.length_nil, List.length_cons]
      omega
    · rcases List.mem_append.1 hc with hc | hc
      · exact .inl (hblanks.all c hc)
      · exact hlead.gap c hc

theorem fieldDefinition?_eq_some {line : Text} {d : FieldDefinition}
    (h : fieldDefinition? line = some d) :
    ∃ indent gap b rest,
      line = definitionLead indent ".field".toList gap b ++
        (d.name ++ ':' :: (d.type ++ rest)) ∧
      d.place = (definitionLead indent ".field".toList gap b).length ∧
      (∀ c ∈ indent, Text.isBlank c = true) ∧ IsLead gap b ∧
      IsName isFieldChar d.name ∧ IsName isInk d.type ∧ Stops isInk rest := by
  unfold fieldDefinition? at h
  simp only [Option.bind_eq_bind, Option.bind_eq_some_iff, Option.pure_def,
    Option.some.injEq] at h
  obtain ⟨⟨place, r⟩, hr, ⟨name, s⟩, hs, u, hu, ⟨type, rest⟩, htype, rfl⟩ := h
  obtain ⟨indent, gap, b, rfl, hplace, hindent, hlead⟩ := afterDirective?_eq_some hr
  obtain ⟨rfl, hname, -⟩ := run?_eq_some_iff.1 hs
  obtain rfl := after?_eq_some_iff.1 hu
  obtain ⟨rfl, htype, hrest⟩ := run?_eq_some_iff.1 htype
  exact ⟨indent, gap, b, rest, rfl, hplace, hindent, hlead, hname, htype, hrest⟩

theorem methodDefinition?_eq_some {line : Text} {d : MethodDefinition}
    (h : methodDefinition? line = some d) :
    ∃ indent gap b rest,
      line = definitionLead indent ".method".toList gap b ++
        (d.name ++ '(' :: (d.parameters ++ ')' :: (d.result ++ rest))) ∧
      d.place = (definitionLead indent ".method".toList gap b).length ∧
      (∀ c ∈ indent, Text.isBlank c = true) ∧ IsLead gap b ∧
      IsName isMethodChar d.name ∧ (∀ c ∈ d.parameters, isParameterChar c = true) ∧
      IsName isInk d.result ∧ Stops isInk rest := by
  unfold methodDefinition? at h
  simp only [Option.bind_eq_bind, Option.bind_eq_some_iff, Option.pure_def,
    Option.some.injEq] at h
  obtain ⟨⟨place, r⟩, hr, ⟨name, s⟩, hs, u, hu, v, hv, ⟨result, rest⟩, hresult, rfl⟩ := h
  obtain ⟨indent, gap, b, rfl, hplace, hindent, hlead⟩ := afterDirective?_eq_some hr
  obtain ⟨rfl, hname, -⟩ := run?_eq_some_iff.1 hs
  obtain rfl := after?_eq_some_iff.1 hu
  rw [after?_eq_some_iff] at hv
  obtain ⟨rfl, hresult, hrest⟩ := run?_eq_some_iff.1 hresult
  refine ⟨indent, gap, b, rest, ?_, hplace, hindent, hlead, hname,
    fun _ => of_mem_takeWhile, hresult, hrest⟩
  have split : u.takeWhile isParameterChar ++ u.dropWhile isParameterChar = u :=
    List.takeWhile_append_dropWhile
  rw [hv] at split
  conv_lhs => rw [← split]
  simp

/-- A line defines a field or a method, never both: the directives differ. -/
theorem methodDefinition?_field (indent gap t : Text) (b : Char)
    (hindent : ∀ c ∈ indent, Text.isBlank c = true) :
    methodDefinition? (definitionLead indent ".field".toList gap b ++ t) = none := by
  have hstop : ∀ u, Stops Text.isBlank (".field".toList ++ u) := fun u => stops_cons.2 (by decide)
  have hline : definitionLead indent ".field".toList gap b ++ t =
      indent ++ (".field".toList ++ (gap ++ [b] ++ t)) := by simp [definitionLead]
  have hafter : afterDirective? ".method".toList
      (definitionLead indent ".field".toList gap b ++ t) = none := by
    have hdrop : after? ".method".toList (".field".toList ++ (gap ++ [b] ++ t)) = none := rfl
    simp only [afterDirective?, hline, takeWhile_of_stops hindent (hstop _), List.drop_left, hdrop,
      Option.bind_eq_bind, Option.bind_none]
  simp only [methodDefinition?, hafter, Option.bind_eq_bind, Option.bind_none]

end Assembly

end Renaming
