import Mathlib.Data.List.Forall2
import Renaming.Fault

/-!
# `Proofs/Ending` — how a computation may end

What is refused matters as much as what is answered: a reader may give up on a text in one way only,
and a run must not stop for a reason that nobody is told. `Ends` says both at once of a
computation, of which kind its value is and of which kind its fault. Both kinds are carried through
the steps of a computation, so they are shown for each step and never for the whole. Where a list is
gone through, each item that has an answer has one of its own, and the first without one decides the
fault (`mapM_eq_ok_iff`, `mapM_eq_error_iff`). The kind of faults that a run may show is that of the
faults with a sentence (`Fault.IsExplained`).
-/

set_option autoImplicit false

namespace Renaming

/-- The computation ends with a value of the one kind or with a fault of the other. -/
def Ends {α : Type} (value : α → Prop) (fault : Fault → Prop) : Except Fault α → Prop
  | .ok a => value a
  | .error f => fault f

instance {α : Type} {value : α → Prop} {fault : Fault → Prop} [DecidablePred value]
    [DecidablePred fault] (x : Except Fault α) : Decidable (Ends value fault x) :=
  match x with
  | .ok a => inferInstanceAs (Decidable (value a))
  | .error f => inferInstanceAs (Decidable (fault f))

/-- A computation that has a value had one at each step. -/
theorem exists_of_bind_eq_ok {α β : Type} {x : Except Fault α} {f : α → Except Fault β} {b : β}
    (h : x >>= f = .ok b) : ∃ a, x = .ok a ∧ f a = .ok b := by
  cases x with
  | error e => cases h
  | ok a => exact ⟨a, rfl, h⟩

namespace Ends

variable {α β : Type} {value value' : α → Prop} {result : β → Prop} {fault fault' : Fault → Prop}

theorem ok_or_error {x : Except Fault α} (h : Ends value fault x) :
    (∃ a, x = .ok a ∧ value a) ∨ ∃ f, x = .error f ∧ fault f := by
  cases x with
  | ok a => exact .inl ⟨a, rfl, h⟩
  | error f => exact .inr ⟨f, rfl, h⟩

theorem mono {x : Except Fault α} (h : Ends value fault x) (hvalue : ∀ a, value a → value' a)
    (hfault : ∀ f, fault f → fault' f) : Ends value' fault' x := by
  cases x with
  | ok a => exact hvalue a h
  | error f => exact hfault f h

theorem bind {x : Except Fault α} (h : Ends value fault x) {f : α → Except Fault β}
    (hf : ∀ a, value a → Ends result fault (f a)) : Ends result fault (x >>= f) := by
  cases x with
  | ok a => exact hf a h
  | error e => exact h

theorem map {x : Except Fault α} (h : Ends value fault x) {f : α → β}
    (hf : ∀ a, value a → result (f a)) : Ends result fault (f <$> x) := by
  cases x with
  | ok a => exact hf a h
  | error e => exact h

/-- Going through a list gives a list of values of the kind that each of its members gives. -/
theorem mapM {f : α → Except Fault β} {items : List α}
    (h : ∀ a ∈ items, Ends result fault (f a)) :
    Ends (fun bs => ∀ b ∈ bs, result b) fault (items.mapM f) := by
  induction items with
  | nil =>
    rw [List.mapM_nil]
    exact fun b hb => absurd hb List.not_mem_nil
  | cons a items ih =>
    rw [List.mapM_cons]
    apply (h a List.mem_cons_self).bind
    intro b hb
    apply (ih fun a ha => h a (List.mem_cons_of_mem _ ha)).bind
    intro bs hbs
    exact List.forall_mem_cons.2 ⟨hb, hbs⟩

/-- **What each step of a loop keeps, the loop keeps.** -/
theorem foldlM {step : β → α → Except Fault β} {items : List α} {b : β} (hb : result b)
    (hstep : ∀ b, result b → ∀ a ∈ items, Ends result fault (step b a)) :
    Ends result fault (items.foldlM step b) := by
  induction items generalizing b with
  | nil => exact hb
  | cons a items ih =>
    rw [List.foldlM_cons]
    apply (hstep b hb a List.mem_cons_self).bind
    intro b' hb'
    exact ih hb' fun b hb a ha => hstep b hb a (List.mem_cons_of_mem _ ha)

end Ends

/-! ## Going through a list that may fail -/

/-- A list is gone through without a failure when each member is. -/
theorem mapM_eq_ok_iff {ε α β : Type} {f : α → Except ε β} {l : List α} {ys : List β} :
    l.mapM f = .ok ys ↔ List.Forall₂ (fun x y => f x = .ok y) l ys := by
  induction l generalizing ys with
  | nil =>
    rw [List.forall₂_nil_left_iff, List.mapM_nil]
    constructor
    · intro h
      cases h
      rfl
    · rintro rfl
      rfl
  | cons x l ih =>
    rw [List.forall₂_cons_left_iff, List.mapM_cons]
    constructor
    · intro h
      cases hx : f x with
      | error e =>
        rw [hx] at h
        cases h
      | ok y =>
        cases hl : l.mapM f with
        | error e =>
          rw [hx, hl] at h
          cases h
        | ok zs =>
          rw [hx, hl] at h
          cases h
          exact ⟨y, zs, rfl, ih.1 hl, rfl⟩
    · rintro ⟨y, zs, hx, hl, rfl⟩
      rw [hx, ih.2 hl]
      rfl

theorem exists_of_mem_mapM {ε α β : Type} {f : α → Except ε β} {l : List α} {ys : List β}
    (h : l.mapM f = .ok ys) {y : β} (hy : y ∈ ys) : ∃ x ∈ l, f x = .ok y := by
  rw [mapM_eq_ok_iff] at h
  induction h with
  | nil => cases hy
  | cons hx _ ih =>
    rcases List.mem_cons.1 hy with rfl | hy
    · exact ⟨_, List.mem_cons_self, hx⟩
    · obtain ⟨x, hmem, hx⟩ := ih hy
      exact ⟨x, List.mem_cons_of_mem _ hmem, hx⟩

theorem exists_mapM_of_mem {ε α β : Type} {f : α → Except ε β} {l : List α} {ys : List β}
    (h : l.mapM f = .ok ys) {x : α} (hx : x ∈ l) : ∃ y ∈ ys, f x = .ok y := by
  rw [mapM_eq_ok_iff] at h
  induction h with
  | nil => cases hx
  | cons hxy _ ih =>
    rcases List.mem_cons.1 hx with rfl | hx
    · exact ⟨_, List.mem_cons_self, hxy⟩
    · obtain ⟨y, hmem, hy⟩ := ih hx
      exact ⟨y, List.mem_cons_of_mem _ hmem, hy⟩

theorem map_eq_of_mapM {ε α β γ : Type} {f : α → Except ε β} {l : List α} {ys : List β}
    (h : l.mapM f = .ok ys) {g : β → γ} {k : α → γ} (hg : ∀ x y, f x = .ok y → g y = k x) :
    ys.map g = l.map k := by
  rw [mapM_eq_ok_iff] at h
  induction h with
  | nil => rfl
  | cons hxy _ ih => rw [List.map_cons, List.map_cons, ih, hg _ _ hxy]

theorem exists_mapM {ε α β : Type} {f : α → Except ε β} {l : List α}
    (h : ∀ x ∈ l, ∃ y, f x = .ok y) : ∃ ys, l.mapM f = .ok ys := by
  induction l with
  | nil => exact ⟨[], rfl⟩
  | cons x l ih =>
    obtain ⟨y, hy⟩ := h x List.mem_cons_self
    obtain ⟨ys, hys⟩ := ih fun z hz => h z (List.mem_cons_of_mem _ hz)
    exact ⟨y :: ys, mapM_eq_ok_iff.2 (.cons hy (mapM_eq_ok_iff.1 hys))⟩

/-- Going through a list fails as its first member that fails. -/
theorem mapM_eq_error_iff {ε α β : Type} {f : α → Except ε β} {l : List α} {e : ε} :
    l.mapM f = .error e ↔ ∃ (i : Nat) (x : α), l[i]? = some x ∧ f x = .error e ∧
      ∀ (j : Nat) (y : α), j < i → l[j]? = some y → ∃ b, f y = .ok b := by
  induction l with
  | nil =>
    refine iff_of_false (fun h => by cases h) ?_
    rintro ⟨i, x, hx, -⟩
    cases hx
  | cons x l ih =>
    rw [List.mapM_cons]
    cases hx : f x with
    | error e' =>
      constructor
      · intro h
        cases h
        exact ⟨0, x, rfl, hx, fun j _ hj => absurd hj (Nat.not_lt_zero j)⟩
      · rintro ⟨i, y, hy, hfail, hfront⟩
        cases i with
        | zero =>
          cases hy
          rw [hx] at hfail
          cases hfail
          rfl
        | succ i =>
          obtain ⟨b, hb⟩ := hfront 0 x (Nat.succ_pos i) rfl
          rw [hx] at hb
          cases hb
    | ok b =>
      have hrest : (do let b ← Except.ok b; let bs ← l.mapM f; pure (b :: bs)) = .error e ↔
          l.mapM f = .error e := by
        cases l.mapM f with
        | error e' => exact Iff.rfl
        | ok bs => exact iff_of_false (fun h => by cases h) fun h => by cases h
      rw [hrest, ih]
      constructor
      · rintro ⟨i, y, hy, hfail, hfront⟩
        refine ⟨i + 1, y, hy, hfail, fun j z hj hz => ?_⟩
        cases j with
        | zero =>
          cases hz
          exact ⟨b, hx⟩
        | succ j => exact hfront j z (Nat.lt_of_succ_lt_succ hj) hz
      · rintro ⟨i, y, hy, hfail, hfront⟩
        cases i with
        | zero =>
          cases hy
          rw [hx] at hfail
          cases hfail
        | succ i =>
          exact ⟨i, y, hy, hfail, fun j z hj hz => hfront (j + 1) z (Nat.succ_lt_succ hj) hz⟩

/-- A list is gone through when each member has a value, and then these are the values. -/
theorem mapM_eq_some_iff {α β : Type} {f : α → Option β} {l : List α} {ys : List β} :
    l.mapM f = some ys ↔ l.map f = ys.map some := by
  induction l generalizing ys with
  | nil =>
    rw [List.mapM_nil, List.map_nil, eq_comm (a := []), List.map_eq_nil_iff]
    exact ⟨fun h => (Option.some.inj h).symm, fun h => congrArg some h.symm⟩
  | cons x l ih =>
    rw [List.mapM_cons, List.map_cons]
    constructor
    · intro h
      obtain ⟨y, hy, h⟩ := Option.bind_eq_some_iff.1 h
      obtain ⟨zs, hzs, h⟩ := Option.bind_eq_some_iff.1 h
      cases h
      rw [hy, ih.1 hzs, List.map_cons]
    · intro h
      cases ys with
      | nil => cases h
      | cons y ys =>
        rw [List.map_cons, List.cons.injEq] at h
        rw [h.1, ih.2 h.2]
        rfl

theorem exists_mapM_eq_some_iff {α β : Type} {f : α → Option β} {l : List α} :
    (∃ ys, l.mapM f = some ys) ↔ ∀ x ∈ l, ∃ y, f x = some y := by
  constructor
  · rintro ⟨ys, h⟩ x hx
    have hmem : f x ∈ ys.map some := by
      rw [← mapM_eq_some_iff.1 h]
      exact List.mem_map_of_mem hx
    obtain ⟨y, -, hy⟩ := List.mem_map.1 hmem
    exact ⟨y, hy.symm⟩
  · intro h
    induction l with
    | nil => exact ⟨[], rfl⟩
    | cons x l ih =>
      obtain ⟨y, hy⟩ := h x List.mem_cons_self
      obtain ⟨ys, hys⟩ := ih fun z hz => h z (List.mem_cons_of_mem _ hz)
      refine ⟨y :: ys, mapM_eq_some_iff.2 ?_⟩
      rw [List.map_cons, List.map_cons, hy, mapM_eq_some_iff.1 hys]

/-! ## Faults with a sentence -/

/-- Whether the fault is explained to the user, and not just told apart. -/
def Fault.IsExplained (f : Fault) : Prop := f.hasMessage = true

instance : DecidablePred Fault.IsExplained :=
  fun f => inferInstanceAs (Decidable (f.hasMessage = true))

end Renaming
