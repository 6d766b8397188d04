import Renaming.Proofs.Symbol.Key
import Renaming.Table.Lookup

/-!
# `Proofs/Table/Member` — fields and methods alike

A table keeps fields and methods in two maps and reads their keys by two rules: the key of a method
has to have a descriptor, and a field is looked up with its descriptor and then without. Whatever is
done with a whole table is done to both in the same way, so what is proved about it is said once for
a kind of members: `kind.names t` are its new names by their keys, `kind.read` reads a key, and
`kind.keys` are the keys under which a member is looked up. The look-up itself is `newName`, which
is `mapMember` wherever neither an exclusion nor a name of the machine is in the way.
-/

set_option autoImplicit false

namespace Renaming

namespace MemberKind

def read : MemberKind → Text → Except Fault MemberKey
  | field => MemberKey.parse
  | method => MemberKey.parseMethod

theorem parse_of_read {kind : MemberKind} {key : Text} {k : MemberKey} (h : kind.read key = .ok k) :
    MemberKey.parse key = .ok k := by
  cases kind with
  | field => exact h
  | method => exact MemberKey.parse_of_parseMethod h

theorem format_of_read {kind : MemberKind} {key : Text} {k : MemberKey}
    (h : kind.read key = .ok k) : k.format = key := MemberKey.format_of_parse (parse_of_read h)

/-- The keys under which a member is looked up, in order. -/
def keys : MemberKind → MemberKey → List Text
  | field, k =>
    (k.descriptor.map (qualifiedKey k.owner k.name)).toList ++ [bareKey k.owner k.name]
  | method, k => [k.format]

theorem keys_eq_cons (kind : MemberKind) (k : MemberKey) : ∃ rest, kind.keys k = k.format :: rest := by
  obtain ⟨owner, name, descriptor⟩ := k
  cases kind with
  | field =>
    cases descriptor with
    | none => exact ⟨[], rfl⟩
    | some d => exact ⟨[bareKey owner name], rfl⟩
  | method => exact ⟨[], rfl⟩

/-- Members of the kind have a descriptor where one is needed. -/
def Described : MemberKind → MemberKey → Prop
  | field, _ => True
  | method, k => ∃ d, k.descriptor = some d ∧ d ≠ []

/-- Reading gives back what was written, for either kind. -/
theorem read_format {kind : MemberKind} {k : MemberKey} (h : k.IsReadable)
    (hd : kind.Described k) : kind.read k.format = .ok k := by
  cases kind with
  | field => exact MemberKey.parse_format h
  | method => exact MemberKey.parseMethod_eq_ok_iff.2 ⟨MemberKey.parse_format h, hd⟩

end MemberKind

namespace Table

def mapMember (t : Table) (kind : MemberKind) (k : MemberKey) : Text :=
  match kind with
  | .field => t.mapField k.owner k.name k.descriptor
  | .method => t.mapMethod k.owner k.name k.descriptor

/-- The machine's own names stay whatever a table says. -/
def IsFixed : MemberKind → Text → Prop
  | .field, _ => False
  | .method, name => isConstructor name = true

theorem mapMember_of_isFixed {kind : MemberKind} {k : MemberKey} (h : IsFixed kind k.name)
    (t : Table) : t.mapMember kind k = k.name := by
  cases kind with
  | field => exact h.elim
  | method =>
    have hname : isConstructor k.name = true := h
    rw [mapMember, mapMethod, hname]
    rfl

/-! ## The one look-up -/

/-- The first key under which the table has the member, with its new name. -/
def found? (t : Table) (kind : MemberKind) (k : MemberKey) : Option (Text × Text) :=
  (kind.keys k).findSome? fun key => ((kind.names t).get? key).map fun target => (key, target)

/-- The new name of a member, constructors and exclusions aside. -/
def newName (t : Table) (kind : MemberKind) (k : MemberKey) : Text :=
  ((t.found? kind k).map Prod.snd).getD k.name

theorem newName_of_found? {t : Table} {kind : MemberKind} {k : MemberKey} {key target : Text}
    (h : t.found? kind k = some (key, target)) : t.newName kind k = target := by
  rw [newName, h]
  rfl

theorem newName_of_found?_eq_none {t : Table} {kind : MemberKind} {k : MemberKey}
    (h : t.found? kind k = none) : t.newName kind k = k.name := by
  rw [newName, h]
  rfl

theorem map_found? (t : Table) (kind : MemberKind) (k : MemberKey) :
    (t.found? kind k).map Prod.snd = (kind.keys k).findSome? (kind.names t).get? := by
  unfold found?
  rw [List.map_findSome?]
  congr 1
  funext key
  show Option.map Prod.snd (Option.map _ _) = _
  rw [Option.map_map]
  exact Option.map_id'

theorem newName_field (t : Table) (k : MemberKey) :
    t.newName .field k = (t.findField? k.owner k.name k.descriptor).getD k.name := by
  obtain ⟨owner, name, descriptor⟩ := k
  rw [newName, map_found?, findField?]
  congr 1
  cases descriptor with
  | none =>
    show [bareKey owner name].findSome? t.fields.get? = t.fields.get? (bareKey owner name)
    rw [List.findSome?_singleton]
  | some d =>
    show [qualifiedKey owner name d, bareKey owner name].findSome? t.fields.get? = _
    rw [List.findSome?_cons]
    cases h : t.fields.get? (qualifiedKey owner name d) with
    | none => rw [List.findSome?_singleton, Option.bind_some, h]
    | some target => rw [Option.bind_some, h]

/-- A member that is looked up by one key only. -/
theorem newName_of_keys {t : Table} {kind : MemberKind} {k : MemberKey}
    (h : kind.keys k = [k.format]) : t.newName kind k = (kind.names t).getD k.format k.name := by
  rw [newName, map_found?, h, List.findSome?_singleton]
  rfl

theorem newName_method (t : Table) (k : MemberKey) :
    t.newName .method k = t.methods.getD k.format k.name := newName_of_keys rfl

theorem exists_of_found? {t : Table} {kind : MemberKind} {k : MemberKey} {key target : Text}
    (h : t.found? kind k = some (key, target)) :
    key ∈ kind.keys k ∧ (kind.names t).get? key = some target := by
  obtain ⟨key', hmem, hkey⟩ := List.exists_of_findSome?_eq_some h
  obtain ⟨target', hget, hpair⟩ := Option.map_eq_some_iff.1 hkey
  cases hpair
  exact ⟨hmem, hget⟩

/-- The key of a member is looked up first. -/
theorem newName_of_get? {t : Table} {kind : MemberKind} {k : MemberKey} {target : Text}
    (h : (kind.names t).get? k.format = some target) : t.newName kind k = target := by
  obtain ⟨rest, hkeys⟩ := kind.keys_eq_cons k
  rw [newName, map_found?, hkeys, List.findSome?_cons, h]
  rfl

section Unexcluded

variable {t : Table} (hx : t.excluded = [])

include hx

theorem isExcluded_eq_false (name : Text) : t.isExcluded name = false := by
  rw [isExcluded, hx]
  rfl

variable {kind : MemberKind} {k : MemberKey} (hname : ¬ IsFixed kind k.name)

include hname

/-- Nothing but exclusions and the names of the machine stand in the way of the look-up. -/
theorem mapMember_eq_newName : t.mapMember kind k = t.newName kind k := by
  cases kind with
  | field =>
    rw [newName_field, mapMember, mapField, isExcluded_eq_false hx]
    rfl
  | method =>
    have hname' : isConstructor k.name = false := Bool.eq_false_iff.2 hname
    rw [newName_method, mapMember, mapMethod, hname', isExcluded_eq_false hx]
    rfl

/-- A member of the table has the name that the table gives it. -/
theorem mapMember_of_get? {key target : Text} (hread : kind.read key = .ok k)
    (hget : (kind.names t).get? key = some target) : t.mapMember kind k = target := by
  rw [mapMember_eq_newName hx hname]
  apply newName_of_get?
  rw [MemberKind.format_of_read hread]
  exact hget

end Unexcluded

end Table

end Renaming
