import Mathlib.Data.List.Nodup
import Renaming.Mapping.Basic
import Renaming.Proofs.OrderedMap
import Renaming.Proofs.Symbol.Descriptor
import Renaming.Proofs.Table.Member

/-!
# `Proofs/Mapping/Rows` — mappings in which every tier names everything

A row names its symbol once per tier, and descriptors are kept in the names of the first. In a
regular mapping any tier would have done: each has a name for every symbol, no two symbols of one
kind share one, and a descriptor can be carried into a tier and back (`inTier`). So a member has a
key in every tier, it can be read back from it, and

> no two members of a kind have one key (`keptKey_inj`).

That is all that is known about rows from here on.
-/

set_option autoImplicit false

namespace Renaming

/-- The name in a tier, empty where it is missing. -/
def nameIn (names : List (Option Text)) (tier : Nat) : Text := (nameAt names tier).getD []

theorem nameAt_eq_some {names : List (Option Text)} {i : Nat} (h : nameAt names i ≠ none) :
    nameAt names i = some (nameIn names i) := by
  cases hname : nameAt names i with
  | none => exact absurd hname h
  | some name => rw [nameIn, hname, Option.getD_some]

theorem nameIn_ne_nil {names : List (Option Text)} {i : Nat} (h : nameAt names i ≠ none) :
    nameIn names i ≠ [] := by
  intro hnil
  have hname := nameAt_eq_some h
  rw [hnil] at hname
  obtain ⟨name, -, hnonempty⟩ := Option.bind_eq_some_iff.1 hname
  cases name <;> cases hnonempty

namespace MemberKind

/-- The rows of a class for the members of a kind. -/
def rows : MemberKind → ClassRow → List MemberRow
  | field => ClassRow.fields
  | method => ClassRow.methods

/-- What of a member goes into the key under which a table made from rows keeps it. -/
def kept : MemberKind → MemberKey → MemberKey
  | field, k => k.bare
  | method, k => k

theorem kept_name (kind : MemberKind) (k : MemberKey) : (kind.kept k).name = k.name := by
  cases kind <;> rfl

theorem kept_owner (kind : MemberKind) (k : MemberKey) : (kind.kept k).owner = k.owner := by
  cases kind <;> rfl

theorem isReadable_kept (kind : MemberKind) {k : MemberKey} (h : k.IsReadable) :
    (kind.kept k).IsReadable := by
  cases kind with
  | field => exact ⟨h.owner_ne, h.owner, h.name_ne, h.name⟩
  | method => exact h

/-- The key under which an entry is found is the one under which its member is kept. -/
theorem keyText_ofKey {kind : MemberKind} {k : MemberKey} (h : kind.Described k) :
    (Identity.ofKey k).keyText kind = (kind.kept k).format := by
  cases kind with
  | field => rfl
  | method =>
    obtain ⟨owner, name, descriptor⟩ := k
    obtain ⟨d, rfl, -⟩ := h
    rfl

end MemberKind

namespace Mapping

/-- The name of a class in a tier; other names stay. -/
def inTier (m : Mapping) (i : Nat) (name : Text) : Text :=
  ((m.classes.get? name).map fun c => nameIn c.names i).getD name

/-- The members of a kind, each with its class. -/
def members (m : Mapping) (kind : MemberKind) : List (ClassRow × MemberRow) :=
  m.classes.values.flatMap fun c => (kind.rows c).map fun r => (c, r)

def keyIn (m : Mapping) (i : Nat) (p : ClassRow × MemberRow) : MemberKey :=
  ⟨nameIn p.1.names i, nameIn p.2.names i, p.2.descriptor.map (Descriptor.rename (m.inTier i))⟩

def keptKey (m : Mapping) (kind : MemberKind) (i : Nat) (p : ClassRow × MemberRow) : Text :=
  (kind.kept (m.keyIn i p)).format

theorem mem_members {m : Mapping} {kind : MemberKind} {p : ClassRow × MemberRow} :
    p ∈ m.members kind ↔ p.1 ∈ m.classes.values ∧ p.2 ∈ kind.rows p.1 := by
  unfold members
  rw [List.mem_flatMap]
  constructor
  · rintro ⟨c, hc, hp⟩
    obtain ⟨r, hr, rfl⟩ := List.mem_map.1 hp
    exact ⟨hc, hr⟩
  · rintro ⟨hc, hr⟩
    exact ⟨p.1, hc, List.mem_map.2 ⟨p.2, hr, rfl⟩⟩

/-- The names of a row are there in every tier and hold none of these characters. -/
def NamedThroughout (m : Mapping) (marks : List Char) (names : List (Option Text)) : Prop :=
  ∀ i < m.namespaces.length, nameAt names i ≠ none ∧ ∀ c ∈ marks, c ∉ nameIn names i

instance (m : Mapping) (marks : List Char) (names : List (Option Text)) :
    Decidable (m.NamedThroughout marks names) :=
  -- only these characters are tried, not all there are
  have (i : Nat) : Decidable (∀ c ∈ marks, c ∉ nameIn names i) := List.decidableBAll _ marks
  inferInstanceAs (Decidable (∀ i < m.namespaces.length, _))

/-- A class is known by the mapping, or it is none of its classes in any tier. -/
def Settled (m : Mapping) (name : Text) : Prop :=
  name ∈ m.classes.keys ∨
    ∀ c ∈ m.classes.values, ∀ i < m.namespaces.length, nameAt c.names i ≠ some name

instance (m : Mapping) (name : Text) : Decidable (m.Settled name) :=
  inferInstanceAs (Decidable (_ ∨ _))

/-- A mapping in which every tier names everything, and nothing in two ways. -/
structure Regular (m : Mapping) : Prop where
  packages : m.packages = []
  declared : ∀ c ∈ m.classes.values, c.declared = true
  classNames : ∀ c ∈ m.classes.values, m.NamedThroughout [' ', ';'] c.names
  memberNames : ∀ kind, ∀ p ∈ m.members kind, m.NamedThroughout [' ', '/'] p.2.names
  distinctClasses : ∀ i < m.namespaces.length,
    (m.classes.values.map fun c => nameAt c.names i).Nodup
  distinctFields : ∀ c ∈ m.classes.values, ∀ i < m.namespaces.length,
    (c.fields.map fun r => nameAt r.names i).Nodup
  distinctMethods : ∀ c ∈ m.classes.values, ∀ i < m.namespaces.length,
    (c.methods.map fun r => (nameAt r.names i, r.descriptor)).Nodup
  described : ∀ p ∈ m.members .method, p.2.descriptor ≠ none ∧ p.2.descriptor ≠ some []
  classComments : ∀ c ∈ m.classes.values, c.comment ≠ some []
  memberComments : ∀ kind, ∀ p ∈ m.members kind, p.2.comment ≠ some []
  settled : ∀ kind, ∀ p ∈ m.members kind, ∀ d ∈ p.2.descriptor,
    ∀ name ∈ Descriptor.classNames d, m.Settled name

/-- A mapping in which every class has a row, no name is missing and every method is described. -/
structure Complete (m : Mapping) : Prop where
  packages : m.packages = []
  declared : ∀ c ∈ m.classes.values, c.declared = true
  classNames : ∀ c ∈ m.classes.values, ∀ i < m.namespaces.length, nameAt c.names i ≠ none
  memberNames : ∀ kind, ∀ p ∈ m.members kind, ∀ i < m.namespaces.length, nameAt p.2.names i ≠ none
  described : ∀ p ∈ m.members .method, p.2.descriptor ≠ none

namespace Complete

variable {m : Mapping} (h : m.Complete) {i : Nat} (hi : i < m.namespaces.length)

include h hi

theorem nameAt_class {c : ClassRow} (hc : c ∈ m.classes.values) :
    nameAt c.names i = some (nameIn c.names i) := nameAt_eq_some (h.classNames c hc i hi)

theorem nameAt_member {kind : MemberKind} {p : ClassRow × MemberRow} (hp : p ∈ m.members kind) :
    nameAt p.2.names i = some (nameIn p.2.names i) := nameAt_eq_some (h.memberNames kind p hp i hi)

end Complete

namespace Regular

variable {m : Mapping} (h : m.Regular) {i : Nat} (hi : i < m.namespaces.length)

include h

theorem complete : m.Complete where
  packages := h.packages
  declared := h.declared
  classNames c hc i hi := (h.classNames c hc i hi).1
  memberNames kind p hp i hi := (h.memberNames kind p hp i hi).1
  described p hp := (h.described p hp).1

include hi

/-! ## Classes -/

theorem class_inj {c c' : ClassRow} (hc : c ∈ m.classes.values) (hc' : c' ∈ m.classes.values)
    (hname : nameIn c.names i = nameIn c'.names i) : c = c' := by
  apply List.inj_on_of_nodup_map (h.distinctClasses i hi) hc hc'
  rw [h.complete.nameAt_class hi hc, h.complete.nameAt_class hi hc', hname]

/-- A class that goes by two first names would have its name in a tier twice. -/
theorem first_inj {name name' : Text} {c c' : ClassRow} (hc : m.classes.get? name = some c)
    (hc' : m.classes.get? name' = some c') (heq : nameIn c.names i = nameIn c'.names i) :
    name = name' := by
  have hnodup : (m.classes.toList.map fun p => nameAt p.2.names i).Nodup := by
    have := h.distinctClasses i hi
    rw [OrderedMap.values, List.map_map] at this
    exact this
  have hp := OrderedMap.get?_eq_some_iff.1 hc
  have hp' := OrderedMap.get?_eq_some_iff.1 hc'
  have hvalue := h.complete.nameAt_class hi (OrderedMap.mem_values_of_get? hc)
  have hvalue' := h.complete.nameAt_class hi (OrderedMap.mem_values_of_get? hc')
  have := List.inj_on_of_nodup_map hnodup hp hp' (by dsimp only; rw [hvalue, hvalue', heq])
  exact congrArg Prod.fst this

theorem inTier_inj {name name' : Text} (hn : m.Settled name) (hn' : m.Settled name')
    (heq : m.inTier i name = m.inTier i name') : name = name' := by
  have known : ∀ {name c}, m.classes.get? name = some c → m.inTier i name = nameIn c.names i := by
    intro name c hc
    rw [inTier, hc]
    rfl
  have foreign : ∀ {name}, m.classes.get? name = none → m.inTier i name = name := by
    intro name hnone
    rw [inTier, hnone]
    rfl
  -- a name that is no class of the mapping is none in the tier either
  have apart : ∀ {name name' c}, m.classes.get? name = some c → m.classes.get? name' = none →
      m.Settled name' → nameIn c.names i ≠ name' := by
    rintro name name' c hc hnone (hkey | hnot) hsame
    · exact absurd hkey (OrderedMap.get?_eq_none_iff.1 hnone)
    · have hvalue := OrderedMap.mem_values_of_get? hc
      exact hnot c hvalue i hi (by rw [h.complete.nameAt_class hi hvalue, hsame])
  cases hc : m.classes.get? name with
  | some c =>
    cases hc' : m.classes.get? name' with
    | some c' =>
      rw [known hc, known hc'] at heq
      exact h.first_inj hi hc hc' heq
    | none =>
      rw [known hc, foreign hc'] at heq
      exact absurd heq (apart hc hc' hn')
  | none =>
    cases hc' : m.classes.get? name' with
    | some c' =>
      rw [foreign hc, known hc'] at heq
      exact absurd heq.symm (apart hc' hc hn)
    | none =>
      rw [foreign hc, foreign hc'] at heq
      exact heq

theorem semicolon_notMem_inTier {name : Text} (hname : ';' ∉ name) : ';' ∉ m.inTier i name := by
  unfold inTier
  cases hc : m.classes.get? name with
  | none => exact hname
  | some c =>
    have hvalue := OrderedMap.mem_values_of_get? hc
    exact (h.classNames c hvalue i hi).2 ';' (List.mem_cons_of_mem _ List.mem_cons_self)

/-! ## Members -/

theorem isReadable_keyIn {kind : MemberKind} {p : ClassRow × MemberRow}
    (hp : p ∈ m.members kind) : (m.keyIn i p).IsReadable := by
  have hc := h.classNames p.1 (mem_members.1 hp).1 i hi
  have hr := h.memberNames kind p hp i hi
  constructor
  · exact nameIn_ne_nil hc.1
  · exact hc.2 ' ' List.mem_cons_self
  · exact nameIn_ne_nil hr.1
  · exact ⟨hr.2 ' ' List.mem_cons_self, hr.2 '/' (List.mem_cons_of_mem _ List.mem_cons_self)⟩

omit hi in
theorem described_keyIn {kind : MemberKind} {p : ClassRow × MemberRow}
    (hp : p ∈ m.members kind) : kind.Described (m.keyIn i p) := by
  cases kind with
  | field => exact trivial
  | method =>
    obtain ⟨hsome, hne⟩ := h.described p hp
    cases hd : p.2.descriptor with
    | none => exact absurd hd hsome
    | some d =>
      refine ⟨Descriptor.rename (m.inTier i) d, ?_, ?_⟩
      · rw [keyIn, hd]
        rfl
      · apply Descriptor.rename_ne_nil
        rintro rfl
        exact hne hd

/-- What is kept of a member is read back from its key. -/
theorem read_keptKey {kind : MemberKind} {p : ClassRow × MemberRow} (hp : p ∈ m.members kind) :
    kind.read (m.keptKey kind i p) = .ok (kind.kept (m.keyIn i p)) := by
  apply MemberKind.read_format
  · exact MemberKind.isReadable_kept kind (h.isReadable_keyIn hi hp)
  · cases kind with
    | field => exact trivial
    | method => exact h.described_keyIn hp

omit hi in
theorem keyText_keyIn {kind : MemberKind} {p : ClassRow × MemberRow} (hp : p ∈ m.members kind) :
    (Identity.ofKey (m.keyIn i p)).keyText kind = m.keptKey kind i p :=
  MemberKind.keyText_ofKey (h.described_keyIn hp)

theorem descriptor_inj {kind : MemberKind} {p p' : ClassRow × MemberRow}
    (hp : p ∈ m.members kind) (hp' : p' ∈ m.members kind)
    (heq : (m.keyIn i p).descriptor = (m.keyIn i p').descriptor) :
    p.2.descriptor = p'.2.descriptor := by
  change p.2.descriptor.map _ = p'.2.descriptor.map _ at heq
  cases hd : p.2.descriptor with
  | none =>
    cases hd' : p'.2.descriptor with
    | none => rfl
    | some d' =>
      rw [hd, hd'] at heq
      cases heq
  | some d =>
    cases hd' : p'.2.descriptor with
    | none =>
      rw [hd, hd'] at heq
      cases heq
    | some d' =>
      rw [hd, hd'] at heq
      have closed : ∀ d : Text, ∀ name ∈ Descriptor.classNames d, ';' ∉ m.inTier i name :=
        fun d name hname =>
          h.semicolon_notMem_inTier hi (Descriptor.notMem_of_mem_classNames hname)
      congr 1
      apply Descriptor.rename_inj (closed d) (closed d') _ (Option.some.inj heq)
      intro name hname name' hname'
      exact h.inTier_inj hi (h.settled kind p hp d hd name hname)
        (h.settled kind p' hp' d' hd' name' hname')

/-- **Members of a kind have keys of their own in every tier.** -/
theorem keptKey_inj {kind : MemberKind} {p p' : ClassRow × MemberRow} (hp : p ∈ m.members kind)
    (hp' : p' ∈ m.members kind) (heq : m.keptKey kind i p = m.keptKey kind i p') : p = p' := by
  have hkept : kind.kept (m.keyIn i p) = kind.kept (m.keyIn i p') := by
    have hread := h.read_keptKey hi hp
    rw [heq, h.read_keptKey hi hp'] at hread
    exact (Except.ok.inj hread).symm
  have howner : nameIn p.1.names i = nameIn p'.1.names i := by
    have := congrArg MemberKey.owner hkept
    rwa [MemberKind.kept_owner, MemberKind.kept_owner] at this
  have hname : nameAt p.2.names i = nameAt p'.2.names i := by
    have := congrArg MemberKey.name hkept
    rw [MemberKind.kept_name, MemberKind.kept_name] at this
    rw [h.complete.nameAt_member hi hp, h.complete.nameAt_member hi hp']
    exact congrArg some this
  obtain ⟨c, r⟩ := p
  obtain ⟨c', r'⟩ := p'
  obtain ⟨hc, hr⟩ := mem_members.1 hp
  obtain ⟨hc', hr'⟩ := mem_members.1 hp'
  obtain rfl : c = c' := h.class_inj hi hc hc' howner
  congr 1
  cases kind with
  | field => exact List.inj_on_of_nodup_map (h.distinctFields c hc i hi) hr hr' hname
  | method =>
    have hdescriptor := h.descriptor_inj hi hp hp' (congrArg MemberKey.descriptor hkept)
    apply List.inj_on_of_nodup_map (h.distinctMethods c hc i hi) hr hr'
    exact Prod.ext hname hdescriptor

end Regular

end Mapping

end Renaming
