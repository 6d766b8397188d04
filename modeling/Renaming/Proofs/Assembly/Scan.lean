import Renaming.Proofs.Assembly.Place
import Renaming.Proofs.Assembly.Shape

/-!
# `Proofs/Assembly/Scan` — where a scan can be cut

A scan goes on behind each shape that it found, so what it finds behind a place depends on what
stands in front of it — but only as long as a name is open there. `Context` is what has to be
remembered of the text that was read: the class name that is open, if there is one. Wherever none
is open, a scan for types can be cut in two (`scanFrom_type_append`), and everything about types in
a longer text follows from this one equation.

References are longer, and a scan for them cannot be cut like that. For them there are the three
steps that a scan can make: past another character than an `L`, past the characters of an owner
that leads nowhere, past a reference.
-/

set_option autoImplicit false

namespace Renaming

namespace Assembly

open Line

theorem ne_L_of_not_isClassChar {c : Char} (h : isClassChar c = false) : c ≠ 'L' := by
  intro hc
  rw [hc] at h
  exact absurd h (by decide)

/-! ## Contexts -/

/-- What a scan for types remembers of the text in front of it. -/
inductive Context where
  | plain
  /-- Behind a blank or the tip of an arrow, where the name of a member may stand. -/
  | tip
  /-- Behind an `L` and characters of a class name. -/
  | run (name : Text)
deriving DecidableEq, Repr

namespace Context

/-- The context behind a character that belongs to no class name. -/
def behind (c : Char) : Context := if c = '>' ∨ Text.isBlank c = true then tip else plain

def next : Context → Char → Context
  | run w, c => if isClassChar c then run (w ++ [c]) else behind c
  | _, c => if c = 'L' then run [] else behind c

def after (s : Context) (t : Text) : Context := t.foldl next s

/-- The part of the text in front that a type may begin with. -/
def opening : Context → Text
  | run w => 'L' :: w
  | _ => []

@[simp] theorem after_nil (s : Context) : s.after [] = s := rfl

@[simp] theorem after_cons (s : Context) (c : Char) (t : Text) :
    s.after (c :: t) = (s.next c).after t := rfl

theorem after_append (s : Context) (u v : Text) : s.after (u ++ v) = (s.after u).after v :=
  List.foldl_append

@[simp] theorem opening_plain : plain.opening = [] := rfl

@[simp] theorem opening_tip : tip.opening = [] := rfl

@[simp] theorem opening_run (w : Text) : (run w).opening = 'L' :: w := rfl

@[simp] theorem opening_behind (c : Char) : (behind c).opening = [] := by
  unfold behind
  split <;> rfl

theorem next_of_not_isClassChar {c : Char} (h : isClassChar c = false) (s : Context) :
    s.next c = behind c := by
  cases s with
  | plain | tip => exact if_neg (ne_L_of_not_isClassChar h)
  | run w => simp [next, h]

theorem next_of_opening_eq_nil {s : Context} (hs : s.opening = []) {c : Char} (hc : c ≠ 'L') :
    s.next c = behind c := by
  cases s with
  | plain | tip => exact if_neg hc
  | run w => cases hs

theorem next_L {s : Context} (hs : s.opening = []) : s.next 'L' = run [] := by
  cases s with
  | plain | tip => rfl
  | run w => cases hs

/-- Behind a character that belongs to no class name it does not matter what was in front. -/
theorem after_of_not_isClassChar {c : Char} (h : isClassChar c = false) (s : Context) (u : Text) :
    s.after (u ++ [c]) = behind c := by
  rw [after_append]
  exact next_of_not_isClassChar h _

theorem after_run {u w : Text} (hw : ∀ c ∈ w, isClassChar c = true) :
    (run u).after w = run (u ++ w) := by
  induction w generalizing u with
  | nil => simp
  | cons c w ih =>
    rw [List.forall_mem_cons] at hw
    have hnext : (run u).next c = run (u ++ [c]) := by simp [next, hw.1]
    rw [after_cons, hnext, ih hw.2, List.append_assoc]
    rfl

/-- The text in front of a context holds class characters only. -/
def IsSound (s : Context) : Prop := ∀ c ∈ s.opening, isClassChar c = true

theorem isSound_of_opening_eq_nil {s : Context} (h : s.opening = []) : s.IsSound := by
  intro c hc
  rw [h] at hc
  cases hc

theorem isSound_run_nil : (run []).IsSound := by
  intro c hc
  obtain rfl := List.mem_singleton.1 hc
  decide

theorem IsSound.snoc {w : Text} (h : (run w).IsSound) {c : Char} (hc : isClassChar c = true) :
    (run (w ++ [c])).IsSound := by
  intro d hd
  rcases List.mem_append.1 (show d ∈ ('L' :: w) ++ [c] from hd) with hd | hd
  · exact h d hd
  · exact List.mem_singleton.1 hd ▸ hc

theorem IsSound.forall_mem {w : Text} (h : (run w).IsSound) : ∀ c ∈ w, isClassChar c = true :=
  fun c hc => h c (List.mem_cons_of_mem _ hc)

end Context

/-! ## Scanning -/

/-- A scan that begins at another place finds the same shapes, moved. -/
theorem scanFrom_add {α : Type} (find : Text → Option (α × Nat)) (skip i j : Nat) (t : Text) :
    scanFrom find skip (i + j) t = (scanFrom find skip j t).map fun x => (i + x.1, x.2) := by
  induction t generalizing skip j with
  | nil => cases skip <;> rfl
  | cons c r ih =>
    cases skip with
    | succ k => exact ih k (j + 1)
    | zero =>
      rw [scanFrom, scanFrom]
      cases find (c :: r) with
      | none => exact ih 0 (j + 1)
      | some x => exact congrArg ((i + j, x.1, x.2) :: ·) (ih (x.2 - 1) (j + 1))

/-! ## Scanning for types -/

theorem type?_eq_none_of_ne {c : Char} (h : c ≠ 'L') (t : Text) : type? (c :: t) = none := by
  unfold type?
  split
  · rename_i heq
    exact absurd (List.cons.inj heq).1 h
  · rfl

/-- Class characters that no semicolon closes. -/
theorem type?_eq_none_of_run {w t : Text} (hw : ∀ c ∈ w, isClassChar c = true)
    (ht : Stops isClassChar t) (hclosed : w = [] ∨ ';' ∉ t.head?) :
    type? ('L' :: (w ++ t)) = none := by
  cases h : type? ('L' :: (w ++ t)) with
  | none => rfl
  | some x =>
    obtain ⟨name, n⟩ := x
    obtain ⟨rest, heq, hname, -⟩ := type?_eq_some_iff.1 h
    have hrest : Stops isClassChar (';' :: rest) := stops_cons.2 (by decide)
    have hwt : w ++ t = name ++ ';' :: rest := (List.cons.inj heq).2
    have hw' : w = name := by
      rw [← takeWhile_of_stops hw ht, hwt, takeWhile_of_stops hname.all hrest]
    have ht' : t = ';' :: rest := by
      rw [← dropWhile_of_stops hw ht, hwt, dropWhile_of_stops hname.all hrest]
    rcases hclosed with hnil | hsemi
    · exact absurd (hw' ▸ hnil) hname.ne_nil
    · exact absurd (by rw [ht']; rfl) hsemi

theorem scanFrom_type_skip {w t : Text} (hw : ∀ c ∈ w, isClassChar c = true)
    (ht : Stops isClassChar t) (hclosed : w = [] ∨ ';' ∉ t.head?) (i : Nat) :
    scanFrom type? 0 i (w ++ t) = scanFrom type? 0 (i + w.length) t := by
  induction w generalizing i with
  | nil => rfl
  | cons c w ih =>
    have hsemi : ';' ∉ t.head? := hclosed.resolve_left (List.cons_ne_nil _ _)
    have hw' : ∀ d ∈ w, isClassChar d = true := fun d hd => hw d (List.mem_cons_of_mem _ hd)
    have hnone : type? (c :: (w ++ t)) = none := by
      by_cases hc : c = 'L'
      · rw [hc]
        exact type?_eq_none_of_run hw' ht (.inr hsemi)
      · exact type?_eq_none_of_ne hc _
    rw [List.cons_append, scanFrom_none hnone, ih hw' (.inr hsemi), List.length_cons]
    congr 1
    omega

/-- An `L` whose class no semicolon closes. -/
theorem scanFrom_type_run {w t : Text} (hw : ∀ c ∈ w, isClassChar c = true)
    (ht : Stops isClassChar t) (hclosed : w = [] ∨ ';' ∉ t.head?) (i : Nat) :
    scanFrom type? 0 i ('L' :: (w ++ t)) = scanFrom type? 0 (i + (w.length + 1)) t := by
  rw [scanFrom_none (type?_eq_none_of_run hw ht hclosed), scanFrom_type_skip hw ht hclosed]
  congr 1
  omega

theorem scanFrom_type_found {w : Text} (hw : IsName isClassChar w) (t : Text) (i : Nat) :
    scanFrom type? 0 i ('L' :: (w ++ ';' :: t)) =
      (i, w, w.length + 2) :: scanFrom type? 0 (i + (w.length + 2)) t := by
  have h : type? (('L' :: (w ++ [';'])) ++ t) = some (w, w.length + 2) :=
    type?_eq_some_iff.2 ⟨t, by simp, hw, rfl⟩
  have := scanFrom_some (List.cons_ne_nil _ _) (by simp) h i
  simpa using this

/-- **Where no class name is open, a scan for types can be cut.** -/
theorem scanFrom_type_append {s : Context} {u : Text} (hs : s.IsSound)
    (hu : (s.after u).opening = []) (i : Nat) (v : Text) :
    scanFrom type? 0 i (s.opening ++ (u ++ v)) =
      scanFrom type? 0 i (s.opening ++ u) ++
        scanFrom type? 0 (i + (s.opening ++ u).length) v := by
  induction u generalizing s i with
  | nil =>
    rw [Context.after_nil] at hu
    simp [hu, scanFrom]
  | cons c u ih =>
    -- as long as the class goes on, the character joins it
    have joined : ∀ {w : Text}, (Context.run w).IsSound → s.opening ++ [c] = 'L' :: w →
        s.next c = .run w → scanFrom type? 0 i (s.opening ++ (c :: u ++ v)) =
          scanFrom type? 0 i (s.opening ++ c :: u) ++
            scanFrom type? 0 (i + (s.opening ++ c :: u).length) v := by
      intro w hw hopening hnext
      have h := ih hw (by rw [← hnext]; exact hu) i
      have hfront : ∀ x, s.opening ++ c :: x = 'L' :: w ++ x := fun x => by
        rw [← hopening, List.append_assoc]; rfl
      rw [List.cons_append, hfront, hfront]
      exact h
    rw [Context.after_cons] at hu
    cases s with
    | plain | tip =>
      by_cases hc : c = 'L'
      · subst hc
        exact joined Context.isSound_run_nil rfl rfl
      · have hnext := Context.next_of_opening_eq_nil (s := .plain) rfl hc
        have h := ih (s := .behind c) (Context.isSound_of_opening_eq_nil (by simp))
          (by rw [← hnext]; exact hu) (i + 1)
        simp only [Context.opening_behind, List.nil_append] at h
        simp only [Context.opening, List.nil_append, List.cons_append, List.length_cons]
        rw [scanFrom_none (type?_eq_none_of_ne hc _), scanFrom_none (type?_eq_none_of_ne hc _), h]
        congr 2
        omega
    | run w =>
      cases hc : isClassChar c with
      | true => exact joined (hs.snoc hc) rfl (by simp [Context.next, hc])
      | false =>
        have hnext := Context.next_of_not_isClassChar hc (.run w)
        have h := fun k => ih (s := .behind c) (Context.isSound_of_opening_eq_nil (by simp))
          (by rw [← hnext]; exact hu) k
        simp only [Context.opening_behind, List.nil_append] at h
        have hclass := hs.forall_mem
        simp only [Context.opening, List.cons_append, List.length_cons, List.length_append]
        by_cases hfound : c = ';' ∧ w ≠ []
        · obtain ⟨rfl, hne⟩ := hfound
          rw [scanFrom_type_found ⟨hne, hclass⟩, scanFrom_type_found ⟨hne, hclass⟩, h,
            List.cons_append]
          congr 3
          omega
        · have hclosed : ∀ x : Text, w = [] ∨ ';' ∉ (c :: x).head? := by
            intro x
            by_cases hw : w = []
            · exact .inl hw
            · refine .inr fun hmem => hfound ⟨?_, hw⟩
              exact Option.some.inj hmem
          have hne := ne_L_of_not_isClassChar hc
          rw [scanFrom_type_run hclass (stops_cons.2 hc) (hclosed _),
            scanFrom_type_run hclass (stops_cons.2 hc) (hclosed _),
            scanFrom_none (type?_eq_none_of_ne hne _), scanFrom_none (type?_eq_none_of_ne hne _), h]
          congr 2
          omega

/-- Characters without a semicolon, and one that ends a class name, hold no type. -/
theorem scanFrom_type_eq_nil {t : Text} (h : ';' ∉ t) (i : Nat) : scanFrom type? 0 i t = [] := by
  induction t generalizing i with
  | nil => rfl
  | cons c r ih =>
    have hnone : type? (c :: r) = none := by
      cases hf : type? (c :: r) with
      | none => rfl
      | some x =>
        obtain ⟨rest, heq, -⟩ := type?_eq_some_iff.1 (show _ = some (x.1, x.2) from hf)
        exact absurd (by rw [heq]; simp) h
    rw [scanFrom_none hnone]
    exact ih (fun hc => h (List.mem_cons_of_mem _ hc)) (i + 1)

theorem scanFrom_type_quiet {b : Text} (hb : ';' ∉ b) {x : Char} (hx : isClassChar x = false)
    (hne : x ≠ ';') (i : Nat) (t : Text) :
    scanFrom type? 0 i (b ++ x :: t) = scanFrom type? 0 (i + (b.length + 1)) t := by
  have hu : (Context.plain.after (b ++ [x])).opening = [] := by
    rw [Context.after_of_not_isClassChar hx, Context.opening_behind]
  have hnil : scanFrom type? 0 i (b ++ [x]) = [] := by
    refine scanFrom_type_eq_nil (fun h => ?_) i
    rcases List.mem_append.1 h with h | h
    · exact hb h
    · exact hne (List.mem_singleton.1 h).symm
  have h := scanFrom_type_append (Context.isSound_of_opening_eq_nil rfl) hu i t
  simp only [Context.opening, List.nil_append] at h
  rw [hnil, List.nil_append, List.length_append, List.append_assoc] at h
  exact h

/-- The class names that a scan for types finds. -/
def typeNames (t : Text) : List Text := (scan type? t).map fun x => x.2.1

theorem map_scanFrom_type (i : Nat) (t : Text) :
    (scanFrom type? 0 i t).map (fun x => x.2.1) = typeNames t := by
  have h := scanFrom_add type? 0 i 0 t
  rw [Nat.add_zero] at h
  rw [h, List.map_map]
  rfl

/-- Where no class name is open, the names on both sides are apart. -/
theorem typeNames_append {u : Text} (hu : (Context.plain.after u).opening = []) (v : Text) :
    typeNames (u ++ v) = typeNames u ++ typeNames v := by
  have h := scanFrom_type_append (Context.isSound_of_opening_eq_nil rfl) hu 0 v
  simp only [Context.opening, List.nil_append] at h
  rw [typeNames, scan, h, List.map_append, map_scanFrom_type, map_scanFrom_type]

theorem typeNames_cons {c : Char} (h : c ≠ 'L') (t : Text) : typeNames (c :: t) = typeNames t := by
  rw [typeNames, scan, scanFrom_none (type?_eq_none_of_ne h t), map_scanFrom_type]

theorem typeNames_found {w : Text} (hw : IsName isClassChar w) (t : Text) :
    typeNames ('L' :: (w ++ ';' :: t)) = w :: typeNames t := by
  rw [typeNames, scan, scanFrom_type_found hw, List.map_cons, map_scanFrom_type]

/-- An `L` whose class no semicolon closes. -/
theorem typeNames_run {w t : Text} (hw : ∀ c ∈ w, isClassChar c = true)
    (ht : Stops isClassChar t) (hclosed : w = [] ∨ ';' ∉ t.head?) :
    typeNames ('L' :: (w ++ t)) = typeNames t := by
  rw [typeNames, scan, scanFrom_type_run hw ht hclosed, map_scanFrom_type]

theorem typeNames_quiet {b : Text} (hb : ';' ∉ b) {x : Char} (hx : isClassChar x = false)
    (hne : x ≠ ';') (t : Text) : typeNames (b ++ x :: t) = typeNames t := by
  rw [typeNames, scan, scanFrom_type_quiet hb hx hne, map_scanFrom_type]

/-! ## Scanning for references -/

theorem reference?_eq_none_of_ne {c : Char} (h : c ≠ 'L') (t : Text) :
    reference? (c :: t) = none := by
  unfold reference?
  split
  · rename_i heq
    exact absurd (List.cons.inj heq).1 h
  · rfl

theorem scanFrom_reference_found {r : Reference} {signature : Text} (h : IsReference r signature)
    (t : Text) (i : Nat) :
    scanFrom reference? 0 i (r.text signature ++ t) =
      (i, r, (r.text signature).length) ::
        scanFrom reference? 0 (i + (r.text signature).length) t :=
  scanFrom_some (List.cons_ne_nil _ _) rfl (reference?_eq_some_iff.2 ⟨signature, t, rfl, h, rfl⟩) i

/-- An owner that leads nowhere does so from every `L` in it. -/
theorem scanFrom_reference_run {u t : Text} (hu : ∀ c ∈ u, isOwnerChar c = true)
    (h : reference? ('L' :: (u ++ t)) = none) (i : Nat) :
    scanFrom reference? 0 i ('L' :: (u ++ t)) = scanFrom reference? 0 (i + (u.length + 1)) t := by
  have skip : ∀ (b a : Text), u = a ++ b → ∀ k,
      scanFrom reference? 0 k (b ++ t) = scanFrom reference? 0 (k + b.length) t := by
    intro b
    induction b with
    | nil => intro a _ k; rfl
    | cons c b ih =>
      intro a hab k
      have hnone : reference? (c :: (b ++ t)) = none := by
        by_cases hc : c = 'L'
        · subst hc
          cases hf : reference? ('L' :: (b ++ t)) with
          | none => rfl
          | some x =>
            -- the owner found here would go on to the left
            obtain ⟨r, n⟩ := x
            obtain ⟨signature, rest, heq, hr, -⟩ := reference?_eq_some_iff.1 hf
            have hlong : IsReference ⟨a ++ 'L' :: r.owner, r.name, r.descriptor⟩ signature := by
              refine ⟨⟨by simp, fun d hd => ?_⟩, hr.name, hr.signature⟩
              rcases List.mem_append.1 hd with hd | hd
              · exact hu d (by rw [hab]; exact List.mem_append_left _ hd)
              · rcases List.mem_cons.1 hd with rfl | hd
                · decide
                · exact hr.owner.all d hd
            have hfound := reference?_eq_some_iff.2 ⟨signature, rest, rfl, hlong, rfl⟩
            have htext : (Reference.text ⟨a ++ 'L' :: r.owner, r.name, r.descriptor⟩ signature) ++
                rest = 'L' :: (u ++ t) := by
              rw [hab, List.append_assoc, List.cons_append, heq]
              simp [Reference.text]
            rw [htext, h] at hfound
            cases hfound
        · exact reference?_eq_none_of_ne hc _
      rw [List.cons_append, scanFrom_none hnone, ih (a ++ [c]) (by rw [hab]; simp),
        List.length_cons]
      congr 1
      omega
  rw [scanFrom_none h, skip u [] rfl]
  congr 1
  omega

/-- Past the end of a class name that begins no reference. -/
theorem scanFrom_reference_lost {w t : Text} (hw : ∀ c ∈ w, isClassChar c = true) {x : Char}
    (hx : isClassChar x = false) (h : reference? ('L' :: (w ++ x :: t)) = none) (i : Nat) :
    scanFrom reference? 0 i ('L' :: (w ++ x :: t)) =
      scanFrom reference? 0 (i + (w.length + 2)) t := by
  have hL := ne_L_of_not_isClassChar hx
  have howner : ∀ c ∈ w, isOwnerChar c = true := fun c hc => isOwnerChar_of_isClassChar (hw c hc)
  rw [scanFrom_reference_run howner h, scanFrom_none (reference?_eq_none_of_ne hL t)]
  rfl

/-- Characters without a semicolon, and one that ends an owner, hold no reference. -/
theorem scanFrom_reference_quiet {b : Text} (hb : ';' ∉ b) {x : Char}
    (hx : isOwnerChar x = false) (hne : x ≠ ';') (i : Nat) (t : Text) :
    scanFrom reference? 0 i (b ++ x :: t) = scanFrom reference? 0 (i + (b.length + 1)) t := by
  have hL : x ≠ 'L' := by rintro rfl; exact absurd hx (by decide)
  induction b generalizing i with
  | nil => exact scanFrom_none (reference?_eq_none_of_ne hL _) i
  | cons c b ih =>
    rw [List.mem_cons, not_or] at hb
    have hnone : reference? (c :: (b ++ x :: t)) = none := by
      cases hf : reference? (c :: (b ++ x :: t)) with
      | none => rfl
      | some y =>
        -- the owner would have to end in front of `x`, at a semicolon
        obtain ⟨r, n⟩ := y
        obtain ⟨signature, rest, heq, hr, -⟩ := reference?_eq_some_iff.1 hf
        have heq' : b ++ x :: t = (r.owner ++ [';']) ++
            ('-' :: '>' :: (r.name ++ signature) ++ rest) := by
          rw [(List.cons.inj heq).2]
          simp
        exfalso
        rcases List.append_eq_append_iff.1 heq' with ⟨v, hv, hv'⟩ | ⟨v, hv, -⟩
        · cases v with
          | nil => exact hb.2 (by rw [← List.append_nil b, ← hv]; simp)
          | cons y v =>
            obtain ⟨rfl, -⟩ := List.cons.inj hv'
            have hmem : x ∈ r.owner ++ [';'] := by rw [hv]; simp
            rcases List.mem_append.1 hmem with hmem | hmem
            · exact absurd (hr.owner.all x hmem) (by simp [hx])
            · exact hne (List.mem_singleton.1 hmem)
        · exact hb.2 (by rw [hv]; simp)
    rw [List.cons_append, scanFrom_none hnone, ih hb.2, List.length_cons]
    congr 1
    omega

/-- The references that a scan finds, each with the text of its signature. -/
def mentions (t : Text) : List (Reference × Text) :=
  (scan reference? t).map fun (i, r, n) =>
    (r, Span.part ⟨i + (r.owner.length + r.name.length + 4), i + n⟩ t)

/-- The mentions behind a part in which the scan finds nothing. -/
theorem mentions_of_scanFrom {u v : Text} {front : List (Nat × Reference × Nat)}
    (h : scanFrom reference? 0 0 (u ++ v) = front ++ scanFrom reference? 0 u.length v) :
    mentions (u ++ v) = (front.map fun (i, r, n) =>
      (r, Span.part ⟨i + (r.owner.length + r.name.length + 4), i + n⟩ (u ++ v))) ++ mentions v := by
  have hv := scanFrom_add reference? 0 u.length 0 v
  rw [Nat.add_zero] at hv
  rw [mentions, scan, h, hv, List.map_append, List.map_map]
  refine congrArg _ (List.map_congr_left fun x _ => ?_)
  obtain ⟨i, r, n⟩ := x
  simp only [Function.comp_apply, Span.part, Nat.add_assoc, ← List.drop_drop, List.drop_left]
  congr 2
  omega

theorem mentions_of_skip {u v : Text}
    (h : scanFrom reference? 0 0 (u ++ v) = scanFrom reference? 0 u.length v) :
    mentions (u ++ v) = mentions v := by
  have := @mentions_of_scanFrom u v [] h
  simpa using this

theorem mentions_cons {c : Char} (h : c ≠ 'L') (t : Text) : mentions (c :: t) = mentions t :=
  mentions_of_skip (u := [c]) (scanFrom_none (reference?_eq_none_of_ne h t) 0)

theorem mentions_lost {w t : Text} (hw : ∀ c ∈ w, isClassChar c = true) {x : Char}
    (hx : isClassChar x = false) (h : reference? ('L' :: (w ++ x :: t)) = none) :
    mentions ('L' :: (w ++ x :: t)) = mentions t := by
  have hscan := scanFrom_reference_lost hw hx h 0
  have := @mentions_of_skip ('L' :: (w ++ [x])) t
  simp only [List.cons_append, List.append_assoc, List.nil_append, List.length_cons,
    List.length_append, List.length_nil] at this
  rw [this]
  rw [hscan, Nat.zero_add]

theorem mentions_eq_nil {w : Text} (hw : ∀ c ∈ w, isClassChar c = true)
    (h : reference? ('L' :: w) = none) : mentions ('L' :: w) = [] := by
  have hscan := @scanFrom_reference_run w [] (fun c hc => isOwnerChar_of_isClassChar (hw c hc))
    (by rwa [List.append_nil]) 0
  rw [List.append_nil] at hscan
  rw [mentions, scan, hscan]
  rfl

theorem mentions_found {r : Reference} {signature : Text} (h : IsReference r signature)
    (t : Text) : mentions (r.text signature ++ t) = (r, signature) :: mentions t := by
  have hscan := scanFrom_reference_found h t 0
  rw [Nat.zero_add] at hscan
  have := @mentions_of_scanFrom _ _ [(0, r, (r.text signature).length)] hscan
  rw [this]
  simp only [List.map_cons, List.map_nil, List.cons_append, List.nil_append, Span.part]
  have htext : r.text signature ++ t =
      ('L' :: (r.owner ++ ';' :: '-' :: '>' :: r.name)) ++ (signature ++ t) := by
    simp [Reference.text]
  have hfront : 0 + (r.owner.length + r.name.length + 4) =
      ('L' :: (r.owner ++ ';' :: '-' :: '>' :: r.name)).length := by
    simp only [List.length_cons, List.length_append]
    omega
  have hlen : 0 + (r.text signature).length - (0 + (r.owner.length + r.name.length + 4)) =
      signature.length := by
    rw [Reference.length_text]
    omega
  rw [hlen, hfront, htext, List.drop_left, List.take_left]

/-! ## Passes that go by a scan -/

section Pass

variable {α : Type} {find : Text → Option (α × Nat)} {edits : Nat × α × Nat → List Edit}

/-- The pieces, which begin at place `i`, with the edits for what a scan of their text finds. -/
def passFrom (find : Text → Option (α × Nat)) (edits : Nat × α × Nat → List Edit) (i : Nat)
    (ps : List Piece) : List Piece :=
  editFrom i ((scanFrom find 0 i (textOf ps)).flatMap edits) ps

theorem lt_start_of_mem_edits (hedits : ∀ x, ∀ e ∈ edits x, x.1 < e.span.start) {i : Nat}
    {t : Text} {e : Edit} (he : e ∈ (scanFrom find 0 i t).flatMap edits) : i < e.span.start := by
  obtain ⟨⟨j, a, n⟩, hx, he⟩ := List.mem_flatMap.1 he
  have h₁ := (find_of_mem_scanFrom hx).1
  have h₂ := hedits _ e he
  dsimp only at h₂
  omega

/-- Pieces in which there is nothing to edit. -/
theorem passFrom_append (hedits : ∀ x, ∀ e ∈ edits x, x.1 < e.span.start) {i : Nat}
    {A B : List Piece}
    (h : (scanFrom find 0 i (textOf A ++ textOf B)).flatMap edits =
      (scanFrom find 0 (i + (textOf A).length) (textOf B)).flatMap edits) :
    passFrom find edits i (A ++ B) = A ++ passFrom find edits (i + (textOf A).length) B := by
  rw [passFrom, textOf_append, h]
  exact editFrom_append (fun e he => lt_start_of_mem_edits hedits he) B

end Pass

end Assembly

end Renaming
