import Mathlib.Data.List.Induction
import Renaming.Proofs.Symbol.Descriptor
import Renaming.Proofs.Table.Compose

/-!
# `Proofs/Table/Chain` — a chain carries each symbol through its steps

A chain is composed from the left, so from the second step on a composition does not see the tables
of the chain but what has been made of them: it reads the owner and the descriptor of a member off
the classes composed so far. What a user expects of a chain is about the tables themselves: take a
symbol, look it up in the first table, look up the answer in the second, and so on (`threadClass`,
`thread`).

The two agree on every class of the first table, and on every member whose owner and classes are
`Settled`: renamed by the first table itself, or by no table at all. The proof is one step lemma
for members, `NamesCarried`, that fields and methods share, and an induction on the number of
steps.
-/

set_option autoImplicit false

namespace Renaming

namespace Table

/-! ## Symbols passed through tables -/

/-- A class passed through tables from left to right. -/
def threadClass (ts : List Table) (name : Text) : Text := ts.foldl (fun c t => t.mapNested c) name

/-- A member after one table, whose new names are in `names`. -/
def carry (t : Table) (names : OrderedMap Text Text) (k : MemberKey) : MemberKey :=
  ⟨t.mapNested k.owner, names.getD k.format k.name,
    k.descriptor.map (Descriptor.rename t.mapNested)⟩

/-- A member passed through tables from left to right. -/
def thread (names : Table → OrderedMap Text Text) (ts : List Table) (k : MemberKey) : MemberKey :=
  ts.foldl (fun k t => t.carry (names t) k) k

/-- No class is renamed to a name with a semicolon. -/
def SemicolonFree (t : Table) : Prop := ∀ target ∈ t.classes.values, ';' ∉ target

/-- No field has its descriptor in its key. -/
def BareFields (t : Table) : Prop :=
  ∀ owner name d, qualifiedKey owner name d ∉ t.fields.keys

/-- The class has a rename of its own in the first table, or no table renames it or a class around
it. -/
def Settled (first : Table) (rest : List Table) (name : Text) : Prop :=
  name ∈ first.classes.keys ∨
    ∀ t ∈ first :: rest, ∀ outer, Encloses outer name → outer ∉ t.classes.keys

/-- Owner and classes of the member are settled. -/
structure SettledMember (first : Table) (rest : List Table) (k : MemberKey) : Prop where
  owner : Settled first rest k.owner
  classes : ∀ d ∈ k.descriptor, ∀ name ∈ Descriptor.classNames d, Settled first rest name

/-! ## What passing through tables does to the parts of a member -/

theorem notMem_mapNested {t : Table} (ht : t.SemicolonFree) {name : Text} (h : ';' ∉ name) :
    ';' ∉ t.mapNested name := by
  have hall : ∀ c ∈ t.mapNested name, c ≠ ';' := by
    refine mapNested_forall (fun target htarget c hc e => ?_) (fun c hc e => ?_)
    · exact ht target htarget (e ▸ hc)
    · exact h (e ▸ hc)
  exact fun hmem => hall _ hmem rfl

theorem owner_thread (names : Table → OrderedMap Text Text) (ts : List Table) (k : MemberKey) :
    (thread names ts k).owner = threadClass ts k.owner := by
  induction ts generalizing k with
  | nil => rfl
  | cons t ts ih => exact ih (t.carry (names t) k)

theorem descriptor_thread {ts : List Table} (hts : ∀ t ∈ ts, t.SemicolonFree)
    (names : Table → OrderedMap Text Text) (k : MemberKey) :
    (thread names ts k).descriptor = k.descriptor.map (Descriptor.rename (threadClass ts)) := by
  induction ts generalizing k with
  | nil =>
    have hid : Descriptor.rename (threadClass []) = id := by
      funext d
      exact Descriptor.rename_eq_self fun _ _ => rfl
    rw [hid, Option.map_id]
    rfl
  | cons t ts ih =>
    have ht := hts t List.mem_cons_self
    show (thread names ts (t.carry (names t) k)).descriptor = _
    rw [ih (fun t' h => hts t' (List.mem_cons_of_mem _ h))]
    show (k.descriptor.map _).map _ = _
    rw [Option.map_map]
    congr 1
    funext d
    exact Descriptor.rename_rename fun name hname =>
      notMem_mapNested ht (Descriptor.notMem_of_mem_classNames hname)

/-! ## Settled classes -/

theorem mapNested_of_forall_notMem {t : Table} {name : Text}
    (h : ∀ outer, Encloses outer name → outer ∉ t.classes.keys) : t.mapNested name = name :=
  resolveNested_of_forall_none fun outer ho => OrderedMap.get?_eq_none_iff.2 (h outer ho)

theorem threadClass_of_forall_notMem {ts : List Table} {name : Text}
    (h : ∀ t ∈ ts, ∀ outer, Encloses outer name → outer ∉ t.classes.keys) :
    threadClass ts name = name := by
  induction ts with
  | nil => rfl
  | cons t ts ih =>
    show threadClass ts (t.mapNested name) = name
    rw [mapNested_of_forall_notMem (h t List.mem_cons_self)]
    exact ih fun t' ht' => h t' (List.mem_cons_of_mem _ ht')

section Composed

variable {first : Table} {rest : List Table}

/-- A table composed of the others has the classes of the first, passed through the rest. -/
theorem get?_foldl_compose_classes (name : Text) :
    (rest.foldl compose first).classes.get? name =
      (first.classes.get? name).map (threadClass rest) := by
  induction rest generalizing first with
  | nil => exact Option.map_id'.symm
  | cons t rest ih =>
    rw [List.foldl_cons, ih, get?_compose_classes, Option.map_map]
    rfl

theorem get?_classes_of_settled {name : Text} (h : Settled first rest name) :
    (rest.foldl compose first).classes.get? name = some (threadClass (first :: rest) name) ∨
      threadClass (first :: rest) name = name ∧
        ∀ outer, Encloses outer name →
          (rest.foldl compose first).classes.get? outer = none := by
  rcases h with h | h
  · obtain ⟨v, hv⟩ := Option.isSome_iff_exists.1 (OrderedMap.mem_keys_iff.1 h)
    refine .inl ?_
    rw [get?_foldl_compose_classes, hv]
    show some (threadClass rest v) = some (threadClass rest (first.mapNested name))
    rw [show first.mapNested name = v from resolveNested_of_find hv]
  · refine .inr ⟨threadClass_of_forall_notMem h, fun outer ho => ?_⟩
    have hnone := OrderedMap.get?_eq_none_iff.2 (h first List.mem_cons_self outer ho)
    rw [get?_foldl_compose_classes, hnone, Option.map_none]

/-- On settled classes the composed tables agree with the single ones, whether a class is looked up
by its own rename only or by those of the classes around it as well. -/
theorem mapNested_of_settled {name : Text} (h : Settled first rest name) :
    (rest.foldl compose first).mapNested name = threadClass (first :: rest) name := by
  rcases get?_classes_of_settled h with h | ⟨hthread, h⟩
  · exact resolveNested_of_find h
  · rw [hthread]
    exact resolveNested_of_forall_none h

theorem renameClass_of_settled {name : Text} (h : Settled first rest name) :
    (rest.foldl compose first).renameClass name = threadClass (first :: rest) name := by
  unfold renameClass OrderedMap.getD
  rcases get?_classes_of_settled h with h | ⟨hthread, h⟩
  · rw [h, Option.getD_some]
  · rw [h name (.refl name), hthread, Option.getD_none]

end Composed

/-! ## Settled members -/

/-- One step for the members of one kind: `names` is the map that holds their new names, `read`
reads their keys. The composition looks the member up in the second table as the first leaves it. -/
def NamesCarried (names : Table → OrderedMap Text Text) (read : Text → Except Fault MemberKey)
    (first second : Table) : Prop :=
  ∀ key, (names (first.compose second)).get? key =
    ((names first).get? key).bind fun mid => (read key).toOption.map fun k =>
      (names second).getD
        (MemberKey.mk (first.mapNested k.owner) mid
          (k.descriptor.map first.renameDescriptor)).format mid

theorem namesCarried_methods (first second : Table) :
    NamesCarried Table.methods MemberKey.parseMethod first second :=
  get?_compose_methods first second

/-- Without descriptors in their keys, fields go by owner and name alone, whatever descriptors the
entries record. -/
theorem namesCarried_fields {first second : Table} (h₁ : first.BareFields)
    (h₂ : second.BareFields) : NamesCarried Table.fields MemberKey.parse first second := by
  intro key
  rw [get?_compose_fields]
  cases hget : first.fields.get? key with
  | none => rfl
  | some mid =>
    cases hparse : MemberKey.parse key with
    | error e => rfl
    | ok k =>
      have hmem : key ∈ first.fields.keys := by rw [OrderedMap.mem_keys_iff, hget]; rfl
      have hdescriptor : k.descriptor = none := by
        cases hd : k.descriptor with
        | none => rfl
        | some d =>
          have hformat : key = qualifiedKey k.owner k.name d := by
            rw [← MemberKey.format_of_parse hparse, MemberKey.format, hd]
          exact absurd (hformat ▸ hmem) (h₁ k.owner k.name d)
      have hfind : ∀ d, second.findField? (first.mapNested k.owner) mid d =
          second.fields.get? (bareKey (first.mapNested k.owner) mid) := by
        intro d
        unfold findField?
        cases d with
        | none => rfl
        | some d =>
          have := OrderedMap.get?_eq_none_iff.2 (h₂ (first.mapNested k.owner) mid d)
          rw [Option.bind_some, this]
      show some ((second.findField? (first.mapNested k.owner) mid _).getD mid) =
        some (second.fields.getD (MemberKey.format ⟨_, mid, k.descriptor.map _⟩) mid)
      rw [hfind, hdescriptor]
      rfl

theorem bareFields_of_notMem {t : Table} (h : ∀ key ∈ t.fields.keys, ' ' ∉ key) :
    t.BareFields := by
  intro owner name d hmem
  exact h _ hmem (by simp [qualifiedKey])

theorem BareFields.compose {first : Table} (h : first.BareFields) (second : Table) :
    (first.compose second).BareFields := by
  intro owner name d
  have hnone := OrderedMap.get?_eq_none_iff.2 (h owner name d)
  rw [← OrderedMap.get?_eq_none_iff, get?_compose_fields, hnone, Option.bind_none]

theorem BareFields.foldl_compose {first : Table} (h : first.BareFields) (rest : List Table) :
    (rest.foldl Table.compose first).BareFields :=
  List.foldlRecOn rest _ h fun _ hr t _ => hr.compose t

theorem Settled.of_append {first t : Table} {rest : List Table} {name : Text}
    (h : Settled first (rest ++ [t]) name) : Settled first rest name := by
  refine h.imp id fun h t' ht' => h t' ?_
  rw [← List.cons_append]
  exact List.mem_append_left _ ht'

theorem SettledMember.of_append {first t : Table} {rest : List Table} {k : MemberKey}
    (h : SettledMember first (rest ++ [t]) k) : SettledMember first rest k :=
  ⟨h.owner.of_append, fun d hd name hname => (h.classes d hd name hname).of_append⟩

section Members

variable {names : Table → OrderedMap Text Text} {read : Text → Except Fault MemberKey}

/-- What a composed table makes of a settled member is what the single tables make of it. -/
theorem eq_thread {first : Table} {rest : List Table} {k : MemberKey}
    (hsemi : ∀ t ∈ first :: rest, t.SemicolonFree) (hk : SettledMember first rest k) :
    MemberKey.mk ((rest.foldl compose first).mapNested k.owner)
      (thread names (first :: rest) k).name
      (k.descriptor.map (rest.foldl compose first).renameDescriptor) =
        thread names (first :: rest) k := by
  have howner := owner_thread names (first :: rest) k
  have hdescriptor := descriptor_thread hsemi names k
  have hrename : k.descriptor.map (rest.foldl compose first).renameDescriptor =
      k.descriptor.map (Descriptor.rename (threadClass (first :: rest))) := by
    refine Option.map_congr fun d hd => ?_
    exact Descriptor.rename_congr fun name hname =>
      renameClass_of_settled (hk.classes d hd name hname)
  rw [mapNested_of_settled hk.owner, hrename, ← howner, ← hdescriptor]

/-- **The run: a settled member is passed through all tables.** The induction goes from the last
table backwards, because a composition is made of one more table at its end. -/
theorem get?_foldl_compose_names {first : Table} {rest : List Table} (hfirst : first.BareFields)
    (hcarried : ∀ t ∈ rest, ∀ r : Table, r.BareFields → NamesCarried names read r t)
    (hsemi : ∀ t ∈ first :: rest, t.SemicolonFree) {key : Text} {k : MemberKey}
    (hread : read key = .ok k) (hformat : k.format = key) (hk : SettledMember first rest k) :
    (names (rest.foldl compose first)).get? key =
      ((names first).get? key).map fun _ => (thread names (first :: rest) k).name := by
  induction rest using List.reverseRecOn with
  | nil =>
    cases hget : (names first).get? key with
    | none => exact hget
    | some v =>
      have hname : (thread names [first] k).name = v := by
        show (names first).getD k.format k.name = v
        rw [hformat, OrderedMap.getD, hget, Option.getD_some]
      rw [Option.map_some, hname]
      exact hget
  | append_singleton rest t ih =>
    have hbegins : ∀ t' ∈ first :: rest, t' ∈ first :: (rest ++ [t]) := fun t' h => by
      rw [← List.cons_append]
      exact List.mem_append_left _ h
    have hsemi' : ∀ t' ∈ first :: rest, t'.SemicolonFree := fun t' h => hsemi t' (hbegins t' h)
    have hstep := hcarried t (by simp) _ (hfirst.foldl_compose rest) key
    rw [ih (fun t' h => hcarried t' (List.mem_append_left _ h)) hsemi' hk.of_append, hread] at hstep
    rw [List.foldl_append, List.foldl_cons, List.foldl_nil, hstep]
    cases (names first).get? key with
    | none => rfl
    | some v =>
      have hthread : thread names (first :: (rest ++ [t])) k =
          t.carry (names t) (thread names (first :: rest) k) := by
        rw [thread, ← List.cons_append, List.foldl_append]
        rfl
      show some ((names t).getD
        (MemberKey.mk _ (thread names (first :: rest) k).name _).format _) = _
      rw [eq_thread hsemi' hk.of_append, hthread]
      rfl

/-- One step leaves out the keys that cannot be read and no others. -/
theorem NamesCarried.mem_keys {first second : Table} (h : NamesCarried names read first second)
    {key : Text} : key ∈ (names (first.compose second)).keys ↔
      key ∈ (names first).keys ∧ ∃ k, read key = .ok k := by
  rw [OrderedMap.mem_keys_iff, OrderedMap.mem_keys_iff, h key]
  cases (names first).get? key with
  | none => simp
  | some v => cases read key <;> simp [Except.toOption]

theorem mem_keys_foldl_compose {first : Table} {rest : List Table} (hrest : rest ≠ [])
    (hfirst : first.BareFields)
    (hcarried : ∀ t ∈ rest, ∀ r : Table, r.BareFields → NamesCarried names read r t) {key : Text} :
    key ∈ (names (rest.foldl compose first)).keys ↔
      key ∈ (names first).keys ∧ ∃ k, read key = .ok k := by
  induction rest using List.reverseRecOn with
  | nil => exact absurd rfl hrest
  | append_singleton rest t ih =>
    have hstep := hcarried t (by simp) _ (hfirst.foldl_compose rest)
    rw [List.foldl_append, List.foldl_cons, List.foldl_nil, hstep.mem_keys]
    cases rest with
    | nil => rfl
    | cons t' rest =>
      rw [ih (List.cons_ne_nil _ _) fun t'' h => hcarried t'' (List.mem_append_left _ h)]
      exact and_assoc.trans (and_congr_right fun _ => and_self_iff)

end Members

/-! ## Chains -/

theorem eq_foldl_of_chain {first : Table} {rest : List Table} {t : Table}
    (h : chain (first :: rest) = .ok t) : t = rest.foldl compose first := by
  induction rest generalizing first with
  | nil => exact (Except.ok.inj h).symm
  | cons s rest ih =>
    change (composed first s >>= fun r => rest.foldlM composed r) = .ok t at h
    cases hc : composed first s with
    | error e => rw [hc] at h; cases h
    | ok r =>
      rw [hc] at h
      obtain rfl := eq_compose_of_composed hc
      exact ih h

/-- With comments that are texts or missing a chain is never refused. -/
theorem chain_of_plain {first : Table} {rest : List Table}
    (h : ∀ t ∈ first :: rest, t.PlainComments) :
    chain (first :: rest) = .ok (rest.foldl compose first) := by
  induction rest generalizing first with
  | nil => rfl
  | cons s rest ih =>
    have hfirst := h first List.mem_cons_self
    have hs := h s (by simp)
    show (composed first s >>= fun r => rest.foldlM composed r) = _
    rw [composed_of_plain hfirst hs]
    refine ih fun t ht => ?_
    rcases List.mem_cons.1 ht with rfl | ht
    · exact hfirst.compose hs
    · exact h t (by simp [ht])

/-- The table carries each symbol of the first table through all of them. -/
structure Threads (first : Table) (rest : List Table) (t : Table) : Prop where
  class_keys : ∀ name, name ∈ t.classes.keys ↔ name ∈ first.classes.keys
  /-- The keys that cannot be read are dropped by the first composition. -/
  field_keys : rest ≠ [] → ∀ key,
    key ∈ t.fields.keys ↔ key ∈ first.fields.keys ∧ ∃ k, MemberKey.parse key = .ok k
  method_keys : rest ≠ [] → ∀ key,
    key ∈ t.methods.keys ↔ key ∈ first.methods.keys ∧ ∃ k, MemberKey.parseMethod key = .ok k
  classes : ∀ name mid, first.classes.get? name = some mid →
    t.classes.get? name = some (threadClass rest mid)
  fields : ∀ key ∈ first.fields.keys, ∀ k, MemberKey.parse key = .ok k →
    SettledMember first rest k →
      t.fields.get? key = some (thread Table.fields (first :: rest) k).name
  methods : ∀ key ∈ first.methods.keys, ∀ k, MemberKey.parseMethod key = .ok k →
    SettledMember first rest k →
      t.methods.get? key = some (thread Table.methods (first :: rest) k).name

/-- **A chain of any length carries each symbol through its steps one after the other**, and it is
refused by its comments only. -/
theorem chain_threads {first : Table} {rest : List Table}
    (hbare : ∀ t ∈ first :: rest, t.BareFields) (hsemi : ∀ t ∈ first :: rest, t.SemicolonFree) :
    ((∀ t ∈ first :: rest, t.PlainComments) → ∃ t, chain (first :: rest) = .ok t) ∧
      ∀ t, chain (first :: rest) = .ok t → Threads first rest t := by
  refine ⟨fun h => ⟨_, chain_of_plain h⟩, fun t ht => ?_⟩
  obtain rfl := eq_foldl_of_chain ht
  have hfirst := hbare first List.mem_cons_self
  have hfields : ∀ t ∈ rest, ∀ r : Table, r.BareFields →
      NamesCarried Table.fields MemberKey.parse r t :=
    fun t ht r hr => namesCarried_fields hr (hbare t (List.mem_cons_of_mem _ ht))
  have hmethods : ∀ t ∈ rest, ∀ r : Table, r.BareFields →
      NamesCarried Table.methods MemberKey.parseMethod r t :=
    fun t _ r _ => namesCarried_methods r t
  refine ⟨fun name => ?_, fun hrest key => ?_, fun hrest key => ?_, fun name mid h => ?_,
    fun key hkey k hread hk => ?_, fun key hkey k hread hk => ?_⟩
  · rw [OrderedMap.mem_keys_iff, OrderedMap.mem_keys_iff, get?_foldl_compose_classes,
      Option.isSome_map]
  · exact mem_keys_foldl_compose hrest hfirst hfields
  · exact mem_keys_foldl_compose hrest hfirst hmethods
  · rw [get?_foldl_compose_classes, h, Option.map_some]
  · obtain ⟨v, hv⟩ := Option.isSome_iff_exists.1 (OrderedMap.mem_keys_iff.1 hkey)
    rw [get?_foldl_compose_names hfirst hfields hsemi hread (MemberKey.format_of_parse hread) hk,
      hv, Option.map_some]
  · obtain ⟨v, hv⟩ := Option.isSome_iff_exists.1 (OrderedMap.mem_keys_iff.1 hkey)
    have hformat := MemberKey.format_of_parse (MemberKey.parse_of_parseMethod hread)
    rw [get?_foldl_compose_names hfirst hmethods hsemi hread hformat hk, hv, Option.map_some]

/-- The owner, the descriptor and the name of a method change together in each of three steps. -/
theorem chain_threads_three :
    let first := (empty.addClass "a".toList "b".toList .null).addMethod "a/m (La;)V".toList
      "n".toList
    let second := (empty.addClass "b".toList "c".toList .null).addMethod "b/n (Lb;)V".toList
      "o".toList
    let third := (empty.addClass "c".toList "d".toList .null).addMethod "c/o (Lc;)V".toList
      "p".toList
    (∀ t ∈ [first, second, third], t.BareFields ∧ t.SemicolonFree ∧ t.PlainComments) ∧
      ∃ t, chain [first, second, third] = .ok t ∧ Threads first [second, third] t ∧
        t.methods.get? "a/m (La;)V".toList = some "p".toList := by
  intro first second third
  have hclass : ∀ source target : Text, (empty.addClass source target .null).PlainComments := by
    intro source target
    have hempty :
        ({ empty with classes := empty.classes.insert source target } : Table).PlainComments :=
      fun e he => absurd he List.not_mem_nil
    exact hempty.addEntry ⟨none, rfl⟩
  have hall : ∀ t ∈ [first, second, third], t.BareFields ∧ t.SemicolonFree ∧ t.PlainComments := by
    intro t ht
    simp only [List.mem_cons, List.not_mem_nil, or_false] at ht
    rcases ht with rfl | rfl | rfl
    all_goals exact ⟨bareFields_of_notMem (by decide), by unfold SemicolonFree; decide, hclass _ _⟩
  obtain ⟨hsome, hthreads⟩ := chain_threads (fun t ht => (hall t ht).1) fun t ht => (hall t ht).2.1
  obtain ⟨t, ht⟩ := hsome fun t ht => (hall t ht).2.2
  refine ⟨hall, t, ht, hthreads t ht, ?_⟩
  rw [eq_foldl_of_chain ht]
  decide +kernel

end Table

end Renaming
