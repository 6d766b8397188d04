import Renaming.Proofs.Assembly.Scan

/-!
# `Proofs/Assembly/Seat` — where replaced names may sit

A shape of the line may be recognised in the old text and not in the new one, or the other way
round, if a name is replaced just anywhere. `Seated` says that it is not: a class was replaced
between an `L` that begins a type and its semicolon, a member behind the tip of an arrow or a blank
and in front of the mark that begins its signature. Then the two texts of the pieces are read in
lockstep:

> behind the same `L`, the text now holds a reference exactly when the text at first did
> (`Seated.reference?_eq_none_iff`).

The relation is symmetric in the old and the new names, so only one direction is proved; the other
is the same with the names exchanged (`Seated.swap`).
-/

set_option autoImplicit false

namespace Renaming

namespace Assembly

open Line

section Mark

variable {x : Char} (hx : x = '(' ∨ x = ':')

include hx

theorem isClassChar_of_mark : isClassChar x = false := by
  rcases hx with rfl | rfl <;> decide

theorem ne_semicolon_of_mark : x ≠ ';' := by
  rcases hx with rfl | rfl <;> decide

theorem behind_of_mark : Context.behind x = .plain := by
  rcases hx with rfl | rfl <;> decide

end Mark

/-- The pieces lead from one context to another, and each replaced name sits where a class (`T`
relates the old and the new name) or a member (`N` does) is expected. -/
inductive Seated (T N : Text → Text → Prop) : Context → List Piece → Context → Prop
  | nil (s : Context) : Seated T N s [] s
  | kept {s e : Context} {c : Char} {ps : List Piece} (rest : Seated T N (s.next c) ps e) :
      Seated T N s (.kept c :: ps) e
  | ofClass {e : Context} {old new : Text} {ps : List Piece} (hold : IsName isClassChar old)
      (hnew : IsName isClassChar new) (h : T old new) (rest : Seated T N .plain ps e) :
      Seated T N (.run []) (.replaced old new :: .kept ';' :: ps) e
  | ofMember {e : Context} {old new : Text} {x : Char} {ps : List Piece} (h : N old new)
      (hx : x = '(' ∨ x = ':') (rest : Seated T N .plain ps e) :
      Seated T N .tip (.replaced old new :: .kept x :: ps) e

section Pieces

variable {T N : Text → Text → Prop} {s m e : Context} {ps A B : List Piece}

theorem Seated.append (hA : Seated T N s A m) (hB : Seated T N m B e) :
    Seated T N s (A ++ B) e := by
  induction hA with
  | nil => exact hB
  | kept _ ih => exact .kept (ih hB)
  | ofClass hold hnew h _ ih => exact .ofClass hold hnew h (ih hB)
  | ofMember h hx _ ih => exact .ofMember h hx (ih hB)

theorem seated_map_kept (s : Context) (w : Text) : Seated T N s (w.map .kept) (s.after w) := by
  induction w generalizing s with
  | nil => exact .nil s
  | cons c w ih => exact .kept (ih (s.next c))

theorem Seated.of_kept {c : Char} (h : Seated T N s (.kept c :: ps) e) :
    Seated T N (s.next c) ps e := by
  cases h with
  | kept rest => exact rest

theorem Seated.of_map_kept {w : Text} (h : Seated T N s (w.map .kept ++ B) e) :
    Seated T N (s.after w) B e := by
  induction w generalizing s with
  | nil => exact h
  | cons c w ih => exact ih h.of_kept

theorem Seated.mono {T' N' : Text → Text → Prop} (hT : ∀ a b, T a b → T' a b)
    (hN : ∀ a b, N a b → N' a b) (h : Seated T N s ps e) : Seated T' N' s ps e := by
  induction h with
  | nil => exact .nil _
  | kept _ ih => exact .kept ih
  | ofClass hold hnew h _ ih => exact .ofClass hold hnew (hT _ _ h) ih
  | ofMember h hx _ ih => exact .ofMember (hN _ _ h) hx ih

/-- In plain context the next character is kept. -/
theorem Seated.exists_kept {c : Char} {rest : Text} (h : Seated T N .plain ps e)
    (ht : textOf ps = c :: rest) : ∃ B, ps = .kept c :: B ∧ textOf B = rest ∧
      Seated T N (Context.plain.next c) B e := by
  cases h with
  | nil => cases ht
  | @kept _ _ d B hB =>
    rw [textOf_kept, List.cons.injEq] at ht
    obtain ⟨rfl, ht⟩ := ht
    exact ⟨B, rfl, ht, hB⟩

theorem Seated.eq_nil (h : Seated T N .plain ps e) (ht : textOf ps = []) : ps = [] := by
  cases h with
  | nil => rfl
  | kept => cases ht

/-- Read at first, the pieces led to the same context. -/
theorem Seated.after_sourceOf (h : Seated T N s ps e) : s.after (sourceOf ps) = e := by
  induction h with
  | nil => rfl
  | kept _ ih => exact ih
  | @ofClass e old new ps _ _ _ _ ih =>
    have hmark := Context.after_of_not_isClassChar (c := ';') (by decide) (.run []) old
    rw [sourceOf_replaced, sourceOf_kept, List.append_cons, Context.after_append, hmark]
    exact ih
  | @ofMember e old new x ps _ hx _ ih =>
    rw [sourceOf_replaced, sourceOf_kept, List.append_cons, Context.after_append,
      Context.after_of_not_isClassChar (isClassChar_of_mark hx), behind_of_mark hx]
    exact ih

end Pieces

/-! ## Old and new names exchanged -/

/-- The piece with its old and its new name exchanged. -/
def Piece.swap : Piece → Piece
  | kept c => kept c
  | replaced old new => replaced new old

@[simp] theorem textOf_map_swap (ps : List Piece) : textOf (ps.map Piece.swap) = sourceOf ps := by
  induction ps with
  | nil => rfl
  | cons p ps ih => cases p <;> simp [Piece.swap, ih]

@[simp] theorem sourceOf_map_swap (ps : List Piece) : sourceOf (ps.map Piece.swap) = textOf ps := by
  induction ps with
  | nil => rfl
  | cons p ps ih => cases p <;> simp [Piece.swap, ih]

theorem Seated.swap {T N : Text → Text → Prop} {s e : Context} {ps : List Piece}
    (h : Seated T N s ps e) :
    Seated (fun a b => T b a) (fun a b => N b a) s (ps.map Piece.swap) e := by
  induction h with
  | nil => exact .nil _
  | kept _ ih => exact .kept ih
  | ofClass hold hnew h _ ih => exact .ofClass hnew hold h ih
  | ofMember h hx _ ih => exact .ofMember h hx ih

/-! ## Runs -/

/-- A run of characters in `p` up to `y` takes no notice of replaced names: classes lie inside of
it, and so do members, unless the mark behind a member ends the run too early. -/
structure Legible (N : Text → Text → Prop) (p : Char → Bool) (y : Char) : Prop where
  stop : p y = false
  ofClass : ∀ c, isClassChar c = true → p c = true
  ofMember : ∀ old new x, N old new → x = '(' ∨ x = ':' →
    old ≠ [] ∧ y ∉ new ∧ ((∀ c ∈ old, p c = true) ∨ p x = false ∧ x ≠ y)

theorem Legible.mono {N N' : Text → Text → Prop} {p : Char → Bool} {y : Char}
    (h : Legible N' p y) (hN : ∀ a b, N a b → N' a b) : Legible N p y :=
  ⟨h.stop, h.ofClass, fun old new x h' hx => h.ofMember old new x (hN old new h') hx⟩

/-- The pieces `W` say the run `w`, and a run at first, up to a kept `y`. -/
structure IsRunOf (T N : Text → Text → Prop) (p : Char → Bool) (y : Char) (s : Context) (w : Text)
    (W : List Piece) : Prop where
  text : textOf W = w
  source : ∀ c ∈ sourceOf W, p c = true
  ne_nil : w ≠ [] → sourceOf W ≠ []
  seated : Seated T N s (W ++ [Piece.kept y]) (.behind y)

theorem IsRunOf.mono {T N T' N' : Text → Text → Prop} {p : Char → Bool} {y : Char} {s : Context}
    {w : Text} {W : List Piece} (h : IsRunOf T N p y s w W) (hT : ∀ a b, T a b → T' a b)
    (hN : ∀ a b, N a b → N' a b) : IsRunOf T' N' p y s w W :=
  ⟨h.text, h.source, h.ne_nil, h.seated.mono hT hN⟩

/-- A part without `y` ends in front of the first `y`. -/
theorem exists_append_of_notMem {α : Type} {b u w rest : List α} {y : α}
    (h : b ++ u = w ++ y :: rest) (hy : y ∉ b) : ∃ v, w = b ++ v ∧ u = v ++ y :: rest := by
  rcases List.append_eq_append_iff.1 h with ⟨v, hw, hu⟩ | ⟨v, hb, hv⟩
  · exact ⟨v, hw, hu⟩
  · cases v with
    | nil =>
      rw [List.append_nil] at hb
      exact ⟨[], by rw [hb, List.append_nil], hv.symm⟩
    | cons d v =>
      obtain ⟨rfl, -⟩ := List.cons.inj hv
      exact absurd (by rw [hb]; simp) hy

/-- **A run in the text was a run at first.** -/
theorem Seated.exists_run {T N : Text → Text → Prop} {p : Char → Bool} {y : Char}
    (hp : Legible N p y) {s e : Context} {ps : List Piece} {w rest : Text}
    (h : Seated T N s ps e) (ht : textOf ps = w ++ y :: rest) (hw : ∀ c ∈ w, p c = true) :
    ∃ W B, ps = W ++ .kept y :: B ∧ IsRunOf T N p y s w W ∧ textOf B = rest ∧
      Seated T N (.behind y) B e := by
  have hy : isClassChar y = false := by
    rw [Bool.eq_false_iff]
    intro hy
    exact absurd (hp.ofClass y hy) (by simp [hp.stop])
  induction h generalizing w with
  | nil => simp at ht
  | @kept s e c ps hps ih =>
    cases w with
    | nil =>
      rw [textOf_kept, List.nil_append, List.cons.injEq] at ht
      obtain ⟨rfl, ht⟩ := ht
      have hnext := Context.next_of_not_isClassChar hy s
      refine ⟨[], ps, rfl, ⟨rfl, by simp, by simp, .kept ?_⟩, ht, hnext ▸ hps⟩
      rw [hnext]
      exact .nil _
    | cons d w =>
      rw [textOf_kept, List.cons_append, List.cons.injEq] at ht
      obtain ⟨rfl, ht⟩ := ht
      obtain ⟨W, B, rfl, hW, hB, hseat⟩ := ih ht fun d hd => hw d (List.mem_cons_of_mem _ hd)
      refine ⟨.kept c :: W, B, rfl, ⟨by rw [textOf_kept, hW.text], ?_, by simp,
        .kept hW.seated⟩, hB, hseat⟩
      rw [sourceOf_kept]
      exact List.forall_mem_cons.2 ⟨hw c List.mem_cons_self, hW.source⟩
  | @ofClass e old new ps hold hnew hT hps ih =>
    have hmem : y ∉ new := fun hmem => by simpa [hy] using hnew.all y hmem
    rw [textOf_replaced, textOf_kept] at ht
    obtain ⟨v, rfl, hv⟩ := exists_append_of_notMem ht hmem
    have hsource : ∀ c ∈ old, p c = true := fun c hc => hp.ofClass c (hold.all c hc)
    cases v with
    | nil =>
      rw [List.nil_append, List.cons.injEq] at hv
      obtain ⟨rfl, hv⟩ := hv
      refine ⟨[Piece.replaced old new], ps, rfl, ⟨by simp, by simpa using hsource,
        fun _ => by simpa using hold.ne_nil, .ofClass hold hnew hT (.nil _)⟩, hv, hps⟩
    | cons d v =>
      rw [List.cons_append, List.cons.injEq] at hv
      obtain ⟨rfl, hv⟩ := hv
      rw [List.forall_mem_append, List.forall_mem_cons] at hw
      obtain ⟨W, B, rfl, hW, hB, hseat⟩ := ih hv hw.2.2
      refine ⟨.replaced old new :: .kept ';' :: W, B, rfl, ⟨by simp [hW.text], ?_, by simp,
        .ofClass hold hnew hT hW.seated⟩, hB, hseat⟩
      rw [sourceOf_replaced, sourceOf_kept]
      exact List.forall_mem_append.2 ⟨hsource, List.forall_mem_cons.2 ⟨hw.2.1, hW.source⟩⟩
  | @ofMember e old new x ps hN hx hps ih =>
    obtain ⟨hold, hmem, hmark⟩ := hp.ofMember old new x hN hx
    rw [textOf_replaced, textOf_kept] at ht
    obtain ⟨v, rfl, hv⟩ := exists_append_of_notMem ht hmem
    cases v with
    | nil =>
      rw [List.nil_append, List.cons.injEq] at hv
      obtain ⟨rfl, hv⟩ := hv
      have hsource : ∀ c ∈ old, p c = true := hmark.resolve_right fun h => h.2 rfl
      have hbehind := behind_of_mark hx
      refine ⟨[Piece.replaced old new], ps, rfl, ⟨by simp, by simpa using hsource,
        fun _ => by simpa using hold, .ofMember hN hx ?_⟩, hv, hbehind ▸ hps⟩
      rw [hbehind]
      exact .nil _
    | cons d v =>
      rw [List.cons_append, List.cons.injEq] at hv
      obtain ⟨rfl, hv⟩ := hv
      rw [List.forall_mem_append, List.forall_mem_cons] at hw
      have hsource : ∀ c ∈ old, p c = true :=
        hmark.resolve_right fun h => by simp [hw.2.1] at h
      obtain ⟨W, B, rfl, hW, hB, hseat⟩ := ih hv hw.2.2
      refine ⟨.replaced old new :: .kept x :: W, B, rfl, ⟨by simp [hW.text], ?_, by simp,
        .ofMember hN hx hW.seated⟩, hB, hseat⟩
      rw [sourceOf_replaced, sourceOf_kept]
      exact List.forall_mem_append.2 ⟨hsource, List.forall_mem_cons.2 ⟨hw.2.1, hW.source⟩⟩

/-! ## References in lockstep -/

/-- The name of a member that closes no signature around it. -/
structure IsMemberName (w : Text) : Prop where
  name : IsName isMemberChar w
  semicolon : ';' ∉ w
  parenthesis : ')' ∉ w

/-- An old and a new name of a member. -/
def MemberNames (old new : Text) : Prop := IsMemberName old ∧ IsMemberName new

theorem isMemberChar_of_isClassChar {c : Char} (h : isClassChar c = true) :
    isMemberChar c = true := by
  simp [isClassChar, isOwnerChar, isMemberChar, isBlankOr] at h ⊢
  tauto

theorem isParameterChar_of_isClassChar {c : Char} (h : isClassChar c = true) :
    isParameterChar c = true := by
  simp [isClassChar, isOwnerChar, isParameterChar, isBlankOr] at h ⊢
  tauto

theorem isResultChar_of_isClassChar {c : Char} (h : isClassChar c = true) :
    isResultChar c = true := by
  simp [isClassChar, isOwnerChar, isResultChar, isBlankOr] at h ⊢
  tauto

theorem IsMemberName.isParameterChar {w : Text} (h : IsMemberName w) :
    ∀ c ∈ w, isParameterChar c = true := by
  intro c hc
  have hmember := h.name.all c hc
  have hne : c ≠ ')' := fun e => h.parenthesis (e ▸ hc)
  simp [isMemberChar, Assembly.isParameterChar, isBlankOr] at hmember ⊢
  tauto

theorem IsMemberName.isResultChar {w : Text} (h : IsMemberName w) :
    ∀ c ∈ w, isResultChar c = true := by
  intro c hc
  have hmember := h.name.all c hc
  have hne : c ≠ ';' := fun e => h.semicolon (e ▸ hc)
  simp [isMemberChar, Assembly.isResultChar, isBlankOr] at hmember ⊢
  tauto

/-- No owner reaches past a member: the mark behind the member would be in it. -/
theorem legible_owner : Legible MemberNames isOwnerChar ';' :=
  ⟨by decide, fun _ => isOwnerChar_of_isClassChar, fun _ _ _ h hx =>
    ⟨h.1.name.ne_nil, h.2.semicolon, .inr (by rcases hx with rfl | rfl <;> decide)⟩⟩

theorem legible_member {y : Char} (hy : y = '(' ∨ y = ':') :
    Legible MemberNames isMemberChar y := by
  have hstop : isMemberChar y = false := by rcases hy with rfl | rfl <;> decide
  refine ⟨hstop, fun _ => isMemberChar_of_isClassChar, fun _ new _ h _ =>
    ⟨h.1.name.ne_nil, fun hmem => ?_, .inl h.1.name.all⟩⟩
  exact absurd (h.2.name.all y hmem) (by simp [hstop])

theorem legible_parameter : Legible MemberNames isParameterChar ')' :=
  ⟨by decide, fun _ => isParameterChar_of_isClassChar, fun _ _ _ h _ =>
    ⟨h.1.name.ne_nil, h.2.parenthesis, .inl h.1.isParameterChar⟩⟩

theorem legible_result : Legible MemberNames isResultChar ';' :=
  ⟨by decide, fun _ => isResultChar_of_isClassChar, fun _ _ _ h _ =>
    ⟨h.1.name.ne_nil, h.2.semicolon, .inl h.1.isResultChar⟩⟩

section References

variable {T N : Text → Text → Prop} {e : Context} {ps : List Piece}

theorem Seated.exists_brackets {k : Nat} {u : Text} (h : Seated T N .plain ps e)
    (ht : textOf ps = List.replicate k '[' ++ u) :
    ∃ B, ps = (List.replicate k '[').map .kept ++ B ∧ textOf B = u ∧
      Seated T N .plain B e := by
  induction k generalizing ps with
  | zero => exact ⟨ps, rfl, ht, h⟩
  | succ k ih =>
    obtain ⟨B, rfl, hB, hseat⟩ := h.exists_kept (c := '[') ht
    obtain ⟨B, rfl, hB, hseat⟩ := ih hseat hB
    exact ⟨B, rfl, hB, hseat⟩

theorem after_brackets (k : Nat) : Context.plain.after (List.replicate k '[') = .plain := by
  induction k with
  | zero => rfl
  | succ k ih => exact ih

theorem next_of_mem_primitives {c : Char} (h : c ∈ 'V' :: primitives) :
    Context.plain.next c = .plain := by
  simp only [primitives, List.mem_cons, List.not_mem_nil, or_false] at h
  rcases h with rfl | rfl | rfl | rfl | rfl | rfl | rfl | rfl | rfl <;> decide

theorem IsResult.after {letters : List Char} (hletters : letters ⊆ 'V' :: primitives)
    {result : Text} (h : IsResult letters result) : Context.plain.after result = .plain := by
  cases h with
  | @ofPrimitive k c hc =>
    rw [Context.after_append, after_brackets]
    exact next_of_mem_primitives (hletters hc)
  | @ofClass k name =>
    have := Context.after_of_not_isClassChar (c := ';') (by decide) .plain
      (List.replicate k '[' ++ 'L' :: name)
    rw [List.append_assoc] at this
    exact this

/-- No class name is open behind a signature. -/
theorem IsSignature.after {d : Option Text} {signature : Text} (h : IsSignature d signature)
    (s : Context) : s.after signature = .plain := by
  cases h with
  | @ofMethod parameters result hp hr =>
    have hfront := Context.after_of_not_isClassChar (c := ')') (by decide) s ('(' :: parameters)
    rw [← List.cons_append, List.append_cons, Context.after_append, hfront]
    exact hr.after (List.Subset.refl _)
  | ofField hr =>
    rw [Context.after_cons, Context.next_of_not_isClassChar (by decide)]
    exact hr.after (List.subset_cons_self ..)

theorem Reference.after_text {r : Reference} {signature : Text} (h : IsReference r signature)
    (s : Context) : s.after (r.text signature) = .plain := by
  simp only [Reference.text, Context.after_cons, Context.after_append]
  exact h.signature.after _

/-- A type in the text was a type at first. -/
theorem Seated.exists_result {letters : List Char} (hletters : letters ⊆ 'V' :: primitives)
    (hN : ∀ old new, N old new → MemberNames old new) {result rest : Text}
    (h : Seated T N .plain ps e) (ht : textOf ps = result ++ rest) (hr : IsResult letters result) :
    ∃ R B, ps = R ++ B ∧ textOf R = result ∧ IsResult letters (sourceOf R) ∧
      Seated T N .plain R .plain ∧ Seated T N .plain B e := by
  have brackets : ∀ k, Seated T N .plain ((List.replicate k '[').map .kept) .plain := by
    intro k
    have := @seated_map_kept T N .plain (List.replicate k '[')
    rwa [after_brackets] at this
  cases hr with
  | @ofPrimitive k c hc =>
    rw [List.append_assoc, List.singleton_append] at ht
    obtain ⟨Q, rfl, hQ, hseat⟩ := h.exists_brackets ht
    obtain ⟨B, rfl, hB, hseat⟩ := hseat.exists_kept hQ
    have hnext := next_of_mem_primitives (hletters hc)
    refine ⟨(List.replicate k '[').map .kept ++ [Piece.kept c], B, by simp,
      by simp [-List.map_replicate], ?_, ?_, ?_⟩
    · rw [sourceOf_append, sourceOf_map_kept]
      exact .ofPrimitive k hc
    · refine (brackets k).append (.kept ?_)
      rw [hnext]
      exact .nil _
    · rwa [hnext] at hseat
  | @ofClass k name hname =>
    rw [List.append_assoc, List.cons_append, List.append_assoc, List.singleton_append] at ht
    obtain ⟨Q, rfl, hQ, hseat⟩ := h.exists_brackets ht
    obtain ⟨Q, rfl, hQ, hseat⟩ := hseat.exists_kept hQ
    obtain ⟨W, B, rfl, hW, -, hB⟩ := hseat.exists_run (legible_result.mono hN) hQ hname.all
    refine ⟨(List.replicate k '[').map .kept ++ .kept 'L' :: (W ++ [Piece.kept ';']), B, by simp,
      by simp [-List.map_replicate, hW.text], ?_, (brackets k).append (.kept hW.seated), hB⟩
    rw [sourceOf_append, sourceOf_map_kept, sourceOf_kept, sourceOf_append]
    exact .ofClass k ⟨hW.ne_nil hname.ne_nil, hW.source⟩

/-- A signature in the text, behind its mark, was a signature at first. -/
theorem Seated.exists_signature (hN : ∀ old new, N old new → MemberNames old new)
    {d : Option Text} {y : Char} {tail rest : Text} (h : Seated T N .plain ps e)
    (ht : textOf ps = tail ++ rest) (hd : IsSignature d (y :: tail)) :
    ∃ S B d', ps = S ++ B ∧ textOf S = tail ∧ IsSignature d' (y :: sourceOf S) ∧
      Seated T N .plain S .plain ∧ Seated T N .plain B e := by
  cases hd with
  | @ofMethod parameters result hp hr =>
    rw [List.append_assoc, List.cons_append] at ht
    obtain ⟨W, Q, rfl, hW, hQ, hseat⟩ := h.exists_run (legible_parameter.mono hN) ht hp
    obtain ⟨R, B, rfl, hR, hresult, hseatR, hB⟩ := hseat.exists_result (List.Subset.refl _) hN hQ hr
    refine ⟨W ++ .kept ')' :: R, B, some ('(' :: (sourceOf W ++ ')' :: sourceOf R)), by simp,
      by simp [hW.text, hR], ?_, ?_, hB⟩
    · rw [sourceOf_append, sourceOf_kept]
      exact .ofMethod hW.source hresult
    · have := hW.seated.append hseatR
      rwa [List.append_assoc] at this
  | ofField hr =>
    obtain ⟨R, B, rfl, hR, hresult, hseatR, hB⟩ :=
      h.exists_result (List.subset_cons_self ..) hN ht hr
    exact ⟨R, B, _, rfl, hR, .ofField hresult, hseatR, hB⟩

theorem IsSignature.exists_mark {d : Option Text} {signature : Text}
    (h : IsSignature d signature) :
    ∃ y tail, signature = y :: tail ∧ (y = '(' ∨ y = ':') ∧ Context.plain.after tail = .plain := by
  have hafter := h.after .plain
  cases h with
  | ofMethod => exact ⟨_, _, rfl, .inl rfl, hafter⟩
  | ofField => exact ⟨_, _, rfl, .inr rfl, hafter⟩

/-- A signature that begins with a parenthesis is the descriptor of a method. -/
theorem IsSignature.descriptor_eq {d : Option Text} {signature : Text}
    (h : IsSignature d signature) :
    d = if signature.head? = some '(' then some signature else none := by
  cases h with
  | ofMethod => rfl
  | ofField => rfl

/-- The pieces `A` behind an `L` say a reference, and they said one at first. -/
structure IsReferenceOf (T N : Text → Text → Prop) (A : List Piece) (r r' : Reference)
    (signature signature' : Text) : Prop where
  text : 'L' :: textOf A = r'.text signature'
  source : 'L' :: sourceOf A = r.text signature
  isReference : IsReference r signature
  seated : Seated T N (.run []) A .plain

theorem IsReferenceOf.mono {T' N' : Text → Text → Prop} {A : List Piece} {r r' : Reference}
    {signature signature' : Text} (h : IsReferenceOf T N A r r' signature signature')
    (hT : ∀ a b, T a b → T' a b) (hN : ∀ a b, N a b → N' a b) :
    IsReferenceOf T' N' A r r' signature signature' :=
  ⟨h.text, h.source, h.isReference, h.seated.mono hT hN⟩

/-- **A reference in the text was a reference at first.** -/
theorem Seated.exists_reference (hN : ∀ old new, N old new → MemberNames old new)
    {r' : Reference} {signature' rest : Text}
    (h : Seated T N (.run []) ps e)
    (ht : 'L' :: textOf ps = r'.text signature' ++ rest) (hr : IsReference r' signature') :
    ∃ A B r signature, ps = A ++ B ∧ IsReferenceOf T N A r r' signature signature' ∧
      Seated T N .plain B e := by
  obtain ⟨y, tail, rfl, hy, -⟩ := hr.signature.exists_mark
  have ht' : textOf ps = r'.owner ++ ';' :: ('-' :: '>' :: (r'.name ++ y :: (tail ++ rest))) := by
    rw [(List.cons.inj ht).2]
    simp
  obtain ⟨O, Q, rfl, hO, hQ, hseat⟩ := h.exists_run (legible_owner.mono hN) ht' hr.owner.all
  obtain ⟨Q, rfl, hQ, hseat⟩ := hseat.exists_kept hQ
  obtain ⟨Q, rfl, hQ, hseat⟩ := Seated.exists_kept hseat hQ
  obtain ⟨M, Q, rfl, hM, hQ, hseat⟩ := hseat.exists_run ((legible_member hy).mono hN) hQ hr.name.all
  have hbehind := behind_of_mark hy
  rw [hbehind] at hseat
  obtain ⟨S, B, d, rfl, hS, hsig, hseatS, hB⟩ := hseat.exists_signature hN hQ hr.signature
  refine ⟨O ++ .kept ';' :: .kept '-' :: .kept '>' :: (M ++ .kept y :: S), B,
    ⟨sourceOf O, sourceOf M, d⟩, y :: sourceOf S, by simp, ⟨?_, ?_, ?_, ?_⟩, hB⟩
  · simp [Reference.text, hO.text, hM.text, hS]
  · simp [Reference.text]
  · exact ⟨⟨hO.ne_nil hr.owner.ne_nil, hO.source⟩, ⟨hM.ne_nil hr.name.ne_nil, hM.source⟩, hsig⟩
  · have hmember := hM.seated
    rw [hbehind] at hmember
    have harrow : Seated T N (.behind ';')
        (.kept '-' :: .kept '>' :: (M ++ [Piece.kept y] ++ S)) .plain :=
      .kept (.kept (hmember.append hseatS))
    have := hO.seated.append harrow
    simpa using this

/-- **Behind the same `L` there is a reference now exactly when there was one at first.** -/
theorem Seated.reference?_eq_none_iff (hN : ∀ old new, N old new → MemberNames old new)
    (h : Seated T N (.run []) ps e) :
    reference? ('L' :: textOf ps) = none ↔ reference? ('L' :: sourceOf ps) = none := by
  have source : ∀ {T' N' : Text → Text → Prop} {qs : List Piece},
      (∀ old new, N' old new → MemberNames old new) → Seated T' N' (.run []) qs e →
        reference? ('L' :: sourceOf qs) = none → reference? ('L' :: textOf qs) = none := by
    intro T' N' qs hN' hqs hnone
    cases hf : reference? ('L' :: textOf qs) with
    | none => rfl
    | some x =>
      obtain ⟨r', n⟩ := x
      obtain ⟨signature', rest, ht, hr, -⟩ := reference?_eq_some_iff.1 hf
      obtain ⟨A, B, r, signature, rfl, hA, -⟩ := hqs.exists_reference hN' ht hr
      have hfound := reference?_eq_some_iff.2 ⟨signature, sourceOf B, rfl, hA.isReference, rfl⟩
      rw [← hA.source, List.cons_append, ← sourceOf_append, hnone] at hfound
      cases hfound
  constructor
  · intro hnone
    have := source (fun old new h' => (hN new old h').symm) h.swap (by rwa [sourceOf_map_swap])
    rwa [textOf_map_swap] at this
  · exact source hN h

end References

end Assembly

end Renaming
