import Renaming.Mapping.Build
import Renaming.Proofs.Mapping.Rows
import Renaming.Proofs.Table.Entries
import Renaming.Proofs.Table.Same

/-!
# `Proofs/Mapping/Between` — what a table made of two tiers says

A table is between two tiers of a mapping when it says what the rows say and nothing else: each
class and each member goes from its name in the one tier to its name in the other, with one entry
that has the comment of the row. The order in which it says so is left open, because a table can be
made in more ways than one. `between_tableBetween` is about the one way to make it directly. Two
tables between the same tiers look up the same (`Between.same`).
-/

set_option autoImplicit false

namespace Renaming

namespace Mapping

/-! ## The entries that the rows stand for -/

def classEntry (i j : Nat) (c : ClassRow) : Entry :=
  .ofClass (nameIn c.names i) (nameIn c.names j) (.ofText? c.comment)

def memberEntry (m : Mapping) (kind : MemberKind) (i j : Nat) (p : ClassRow × MemberRow) : Entry :=
  .ofMember kind (.ofKey (m.keyIn i p)) (.ofKey (m.keyIn j p)) (.ofText? p.2.comment)

/-- The entry is that of some row. -/
inductive IsEntry (m : Mapping) (i j : Nat) : Entry → Prop
  | ofClass {c : ClassRow} (hc : c ∈ m.classes.values) : IsEntry m i j (classEntry i j c)
  | ofMember {kind : MemberKind} {p : ClassRow × MemberRow} (hp : p ∈ m.members kind) :
    IsEntry m i j (m.memberEntry kind i j p)

/-- The table says what the rows say from one tier to another. -/
structure Between (m : Mapping) (i j : Nat) (t : Table) : Prop where
  packages : ∀ package, t.packages.get? package = none
  classes : ∀ source target, t.classes.get? source = some target ↔
    ∃ c ∈ m.classes.values, nameIn c.names i = source ∧ nameIn c.names j = target
  names : ∀ kind key target, (MemberKind.names kind t).get? key = some target ↔
    ∃ p ∈ m.members kind, m.keptKey kind i p = key ∧ nameIn p.2.names j = target
  entries : ∀ k e, t.entries.get? k = some e ↔ m.IsEntry i j e ∧ (e.kind, e.targetKey) = k

theorem Between.same {m : Mapping} {i j : Nat} {t u : Table} (ht : Between m i j t)
    (hu : Between m i j u) : Table.SameLookups t u where
  packages package := (ht.packages package).trans (hu.packages package).symm
  classes name := Option.ext fun target => (ht.classes name target).trans (hu.classes name target).symm
  fields key := Option.ext fun target =>
    (ht.names .field key target).trans (hu.names .field key target).symm
  methods key := Option.ext fun target =>
    (ht.names .method key target).trans (hu.names .method key target).symm
  entries k := Option.ext fun e => (ht.entries k e).trans (hu.entries k e).symm

/-- The entry of a row is found to be the same as itself. -/
theorem IsEntry.same?_self {m : Mapping} {i j : Nat} {e : Entry} (he : m.IsEntry i j e) :
    e.same? e = some true := by
  have hsymbol : e.sameSymbol e = true := by
    cases he with
    | ofClass hc => simp [classEntry, Entry.sameSymbol]
    | ofMember hp => simp [memberEntry, Entry.sameSymbol]
  rw [Entry.same?, hsymbol, if_pos rfl]
  cases he with
  | ofClass hc => exact Datum.same?_ofText? _
  | ofMember hp => exact Datum.same?_ofText? _

namespace Regular

variable {m : Mapping} (h : m.Regular) {i j : Nat}

include h

theorem isEntry_target_inj (hj : j < m.namespaces.length) {e e' : Entry} (he : m.IsEntry i j e)
    (he' : m.IsEntry i j e') (heq : (e.kind, e.targetKey) = (e'.kind, e'.targetKey)) : e = e' := by
  rw [Prod.mk.injEq] at heq
  obtain ⟨hkind, hkey⟩ := heq
  cases he with
  | ofClass hc =>
    cases he' with
    | ofClass hc' =>
      obtain rfl := h.class_inj hj hc hc' hkey
      rfl
    | @ofMember kind p hp => cases kind <;> cases hkind
  | @ofMember kind p hp =>
    cases he' with
    | ofClass hc' => cases kind <;> cases hkind
    | @ofMember kind' p' hp' =>
      -- keys alone would not do: a field and a method may be called alike
      obtain rfl : kind = kind' := by
        cases kind <;> cases kind' <;> first | rfl | cases hkind
      have hkept : m.keptKey kind j p = m.keptKey kind j p' := by
        rw [← h.keyText_keyIn hp, ← h.keyText_keyIn hp']
        exact hkey
      rw [h.keptKey_inj hj hp hp' hkept]

/-- Entries that are written in any order are looked up as the rows have them. -/
theorem get?_ofList_keyed_iff (hj : j < m.namespaces.length) {l : List Entry}
    (hl : ∀ e, e ∈ l ↔ m.IsEntry i j e) {k : SymbolKind × Text} {e : Entry} :
    (OrderedMap.ofList (l.map Entry.keyed)).get? k = some e ↔
      m.IsEntry i j e ∧ (e.kind, e.targetKey) = k := by
  have hfunctional : OrderedMap.Functional (l.map Entry.keyed) := by
    apply OrderedMap.functional_map
    intro e he e' he' hkey
    exact h.isEntry_target_inj hj ((hl e).1 he) ((hl e').1 he') hkey
  rw [OrderedMap.get?_ofList_iff hfunctional, List.mem_map]
  constructor
  · rintro ⟨e', he', heq⟩
    cases heq
    exact ⟨(hl e).1 he', rfl⟩
  · rintro ⟨he, rfl⟩
    exact ⟨e, (hl e).2 he, rfl⟩

omit h in
theorem isEntry_reversed {e : Entry} (he : m.IsEntry i j e) : m.IsEntry j i e.reversed := by
  cases he with
  | ofClass hc => exact .ofClass hc
  | ofMember hp => exact .ofMember hp

/-- The key of a field has no blank, so it is not its key with a signature. -/
theorem blank_notMem_sourceKey (hi : i < m.namespaces.length) {e : Entry} (he : m.IsEntry i j e)
    (hkind : e.kind = .ofField) : ' ' ∉ e.sourceKey := by
  cases he with
  | ofClass hc => cases hkind
  | @ofMember kind p hp =>
    cases kind with
    | field =>
      have hread := h.isReadable_keyIn hi hp
      exact MemberKey.blank_notMem_bareKey hread.owner hread.name.1
    | method => cases hkind

theorem isEntry_own_source_inj (hi : i < m.namespaces.length) {e e' : Entry}
    (he : m.IsEntry i j e) (he' : m.IsEntry i j e') (hkind : e.kind = e'.kind)
    (hkey : e.sourceKey = e'.sourceKey) : e = e' := by
  -- turned round, the entries have their sources as targets
  have heq := h.isEntry_target_inj hi (isEntry_reversed he) (isEntry_reversed he')
    (by rw [Entry.kind_reversed, Entry.kind_reversed, Entry.targetKey_reversed,
      Entry.targetKey_reversed, hkind, hkey])
  rw [← e.reversed_reversed, heq, e'.reversed_reversed]

theorem sourceKey_ne (hi : i < m.namespaces.length) {e : Entry} (he : m.IsEntry i j e)
    (hkind : e.kind = .ofField) (key d : Text) : e.sourceKey ≠ key ++ ' ' :: d := by
  intro heq
  apply h.blank_notMem_sourceKey hi he hkind
  rw [heq]
  exact List.mem_append_right _ List.mem_cons_self

theorem sourceKey_eq_of_signature (hi : i < m.namespaces.length) {e e' : Entry}
    (he : m.IsEntry i j e) (he' : m.IsEntry i j e') (hkind : e.kind = .ofField)
    (hkind' : e'.kind = .ofField) {d d' : Text}
    (heq : e.sourceKey ++ ' ' :: d = e'.sourceKey ++ ' ' :: d') : e.sourceKey = e'.sourceKey := by
  have hcut : Text.cut ' ' (e.sourceKey ++ ' ' :: d) = some (e.sourceKey, d) :=
    Text.cut_eq_some_iff.2 ⟨rfl, h.blank_notMem_sourceKey hi he hkind⟩
  have hcut' : Text.cut ' ' (e'.sourceKey ++ ' ' :: d') = some (e'.sourceKey, d') :=
    Text.cut_eq_some_iff.2 ⟨rfl, h.blank_notMem_sourceKey hi he' hkind'⟩
  rw [heq, hcut', Option.some.injEq, Prod.mk.injEq] at hcut
  exact hcut.1.symm

/-- **No two entries are found by one key.** -/
theorem isEntry_source_inj (hi : i < m.namespaces.length) {e e' : Entry} (he : m.IsEntry i j e)
    (he' : m.IsEntry i j e') {k : SymbolKind × Text} (hk : k ∈ Table.sourceKeys e)
    (hk' : k ∈ Table.sourceKeys e') : e = e' := by
  rcases Table.mem_sourceKeys hk with rfl | ⟨hfield, d, rfl⟩
  · rcases Table.mem_sourceKeys hk' with heq | ⟨-, d, heq⟩
    · rw [Prod.mk.injEq] at heq
      exact h.isEntry_own_source_inj hi he he' heq.1 heq.2
    · rw [Prod.mk.injEq] at heq
      exact absurd heq.2 (h.sourceKey_ne hi he heq.1 _ d)
  · rcases Table.mem_sourceKeys hk' with heq | ⟨hfield', d', heq⟩
    · rw [Prod.mk.injEq] at heq
      exact absurd heq.2.symm (h.sourceKey_ne hi he' heq.1.symm _ d)
    · rw [Prod.mk.injEq] at heq
      have hkey := h.sourceKey_eq_of_signature hi he he' hfield hfield' heq.2
      exact h.isEntry_own_source_inj hi he he' (hfield.trans hfield'.symm) hkey

end Regular

/-! ## Looking entries up by their source -/

theorem Between.mem_values {m : Mapping} {i j : Nat} {t : Table} (ht : Between m i j t) {e : Entry} :
    e ∈ t.entries.values ↔ m.IsEntry i j e := by
  rw [OrderedMap.mem_values_iff]
  constructor
  · rintro ⟨k, hk⟩
    exact ((ht.entries k e).1 hk).1
  · intro he
    exact ⟨_, (ht.entries _ e).2 ⟨he, rfl⟩⟩

theorem Between.get?_bySource {m : Mapping} (h : m.Regular) {i j : Nat}
    (hi : i < m.namespaces.length) {t : Table} (ht : Between m i j t) {k : SymbolKind × Text}
    {e : Entry} : t.bySource.get? k = some e ↔ m.IsEntry i j e ∧ k ∈ Table.sourceKeys e := by
  rw [Table.get?_bySource_iff, ht.mem_values]
  intro e he e' he' k hk hk'
  exact h.isEntry_source_inj hi (ht.mem_values.1 he) (ht.mem_values.1 he') hk hk'

end Mapping

end Renaming
