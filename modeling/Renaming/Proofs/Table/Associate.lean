import Renaming.Proofs.Table.Continue
import Renaming.Proofs.Table.PassOn

/-!
# `Proofs/Table/Associate` — composing three tables from the left and from the right

From the left the third table is asked about a member as the composition of the first two passes it
on, from the right as the second passes on the member of its own under whose key it was found. So
the two agree on a member exactly when the third table answers both questions alike
(`AnsweredAlike`), which is so in particular when they are one question (`PassedOn`). For classes
see `Continue`; `compose_assoc` puts all kinds of symbols together.
-/

set_option autoImplicit false

namespace Renaming

namespace Table

variable {first second third : Table}

/-! ## What a composition finds -/

/-- All member keys of the table can be read. -/
def ReadableKeys (t : Table) : Prop :=
  ∀ kind : MemberKind, ∀ key ∈ (kind.names t).keys, ∃ k, kind.read key = .ok k

/-- A composition finds a member where its first table does. -/
theorem found?_compose (hkeys : second.ReadableKeys) (kind : MemberKind) (q : MemberKey) :
    (second.compose third).found? kind q = (second.found? kind q).map fun p =>
      (p.1, ((kind.read p.1).toOption.map fun k =>
        third.newName kind (second.passOn kind k p.2)).getD p.2) := by
  unfold found?
  rw [List.map_findSome?]
  congr 1
  funext key
  rw [get?_compose_names]
  show _ = Option.map _ (Option.map _ _)
  rw [Option.map_map]
  cases hget : (kind.names second).get? key with
  | none => rfl
  | some target =>
    have hkey : key ∈ (kind.names second).keys := by
      rw [OrderedMap.mem_keys_iff, hget]
      rfl
    obtain ⟨k, hread⟩ := hkeys kind key hkey
    show Option.map _ (Option.bind (some target) _) = some (key, ((kind.read key).toOption.map
      fun k => third.newName kind (second.passOn kind k target)).getD target)
    rw [hread]
    rfl

/-! ## Members from the left and from the right -/

/-- The two compositions agree on the member. -/
def AgreeOnMember (first second third : Table) (kind : MemberKind) (k : MemberKey) : Prop :=
  (fromLeft first second third).mapMember kind k = (fromRight first second third).mapMember kind k

instance (first second third : Table) (kind : MemberKind) (k : MemberKey) :
    Decidable (AgreeOnMember first second third kind k) := inferInstanceAs (Decidable (_ = _))

/-- A member of the first table, there renamed to `mid`, that the second does not find is left alone
by the third. One that the second finds has the same name in the third whether the composition of
the first two or the second passes it on. -/
def AnsweredAlike (first second third : Table) (kind : MemberKind) (k : MemberKey) (mid : Text) :
    Prop :=
  match second.found? kind (first.passOn kind k mid) with
  | none => third.newName kind ((first.compose second).passOn kind k mid) = mid
  | some (key, target) => ∀ k', kind.read key = .ok k' →
    third.newName kind ((first.compose second).passOn kind k target) =
      third.newName kind (second.passOn kind k' target)

section Member

variable (hx : first.excluded = []) {kind : MemberKind} {key mid : Text} {k : MemberKey}
  (hget : (kind.names first).get? key = some mid) (hread : kind.read key = .ok k)
  (hname : ¬ IsFixed kind k.name)

include hx hget hread hname

theorem mapMember_fromLeft :
    (fromLeft first second third).mapMember kind k = third.newName kind
      ((first.compose second).passOn kind k
        (second.newName kind (first.passOn kind k mid))) := by
  have hxl : (fromLeft first second third).excluded = [] :=
    compose_excluded_eq_nil (compose_excluded_eq_nil hx second) third
  apply mapMember_of_get? hxl hname hread
  exact get?_compose_names_of_get? (get?_compose_names_of_get? hget hread) hread

theorem mapMember_fromRight :
    (fromRight first second third).mapMember kind k =
      (second.compose third).newName kind (first.passOn kind k mid) := by
  have hxr : (fromRight first second third).excluded = [] :=
    compose_excluded_eq_nil hx (second.compose third)
  exact mapMember_of_get? hxr hname hread (get?_compose_names_of_get? hget hread)

/-- The third table is asked two questions about the member, one from either side. -/
theorem agreeOnMember_iff (hkeys : second.ReadableKeys) :
    AgreeOnMember first second third kind k ↔ AnsweredAlike first second third kind k mid := by
  -- `second` and its composition with `third` find the member under the same key, or neither does
  have hright := @found?_compose second third hkeys kind (first.passOn kind k mid)
  unfold AgreeOnMember AnsweredAlike
  rw [mapMember_fromLeft hx hget hread hname, mapMember_fromRight hx hget hread hname]
  cases hfound : second.found? kind (first.passOn kind k mid) with
  | none =>
    rw [hfound, Option.map_none] at hright
    rw [newName_of_found?_eq_none hfound, newName_of_found?_eq_none hright]
    rfl
  | some p =>
    obtain ⟨key', target⟩ := p
    have hkey : key' ∈ (kind.names second).keys := by
      rw [OrderedMap.mem_keys_iff, (exists_of_found? hfound).2]
      rfl
    obtain ⟨k', hread'⟩ := hkeys kind key' hkey
    rw [hfound, Option.map_some, hread'] at hright
    rw [newName_of_found? hfound, newName_of_found? hright]
    constructor
    · rintro h k'' hk''
      cases hread'.symm.trans hk''
      exact h
    · intro h
      exact h k' hread'

end Member

/-! ## One question -/

/-- The composition of two tables passes a member on as the first and then the second do: the owner
goes on in the second table where it stops in the first, and so does each class of the descriptor,
by exact entries. -/
structure PassedOn (first second : Table) (k : MemberKey) : Prop where
  owner : Continues first second k.owner
  closed : ∀ d ∈ k.descriptor, ∀ c ∈ Descriptor.classNames d, ';' ∉ first.renameClass c
  classes : ∀ d ∈ k.descriptor, ∀ c ∈ Descriptor.classNames d,
    (first.compose second).renameClass c = second.renameClass (first.renameClass c)

theorem PassedOn.descriptor_eq {k : MemberKey} (h : PassedOn first second k) :
    k.descriptor.map (first.compose second).renameDescriptor =
      (k.descriptor.map first.renameDescriptor).map second.renameDescriptor := by
  rw [Option.map_map]
  apply Option.map_congr
  intro d hd
  show _ = Descriptor.rename second.renameClass (Descriptor.rename first.renameClass d)
  rw [Descriptor.rename_rename (h.closed d hd)]
  exact Descriptor.rename_congr (h.classes d hd)

/-- The key under which a readable member was found is its own, up to the descriptor of a field. -/
theorem read_of_mem_keys {kind : MemberKind} {q k' : MemberKey} (hq : q.IsReadable)
    {key : Text} (hkey : key ∈ kind.keys q) (hread : kind.read key = .ok k') :
    k'.owner = q.owner ∧ k'.name = q.name ∧ (kind = .method → k' = q) := by
  have hown : ∀ {p : MemberKey}, p.IsReadable → p.format = key → k' = p := by
    intro p hp hformat
    have hparse := MemberKind.parse_of_read hread
    rw [← hformat, MemberKey.parse_format hp] at hparse
    exact (Except.ok.inj hparse).symm
  cases kind with
  | field =>
    rcases List.mem_append.1 hkey with h | h
    · obtain ⟨d, hd, rfl⟩ : ∃ d, q.descriptor = some d ∧ qualifiedKey q.owner q.name d = key := by
        simpa using h
      have hformat : q.format = qualifiedKey q.owner q.name d := by
        rw [MemberKey.format, hd]
      cases hown hq hformat
      exact ⟨rfl, rfl, fun _ => rfl⟩
    · have hbare : q.bare.IsReadable := ⟨hq.owner_ne, hq.owner, hq.name_ne, hq.name⟩
      cases hown hbare (List.mem_singleton.1 h).symm
      exact ⟨rfl, rfl, by rintro ⟨⟩⟩
  | method =>
    cases hown hq (List.mem_singleton.1 hkey).symm
    exact ⟨rfl, rfl, fun _ => rfl⟩

/-- A member that the second table finds, passed on alike. -/
theorem answeredAlike_of_passedOn {kind : MemberKind} {k : MemberKey} {mid : Text}
    (hfound : second.found? kind (first.passOn kind k mid) ≠ none)
    (hq : (first.passOn kind k mid).IsReadable) (hk : PassedOn first second k)
    (hbare : kind = .field → third.BareFields) : AnsweredAlike first second third kind k mid := by
  unfold AnsweredAlike
  cases hp : second.found? kind (first.passOn kind k mid) with
  | none => exact absurd hp hfound
  | some p =>
    obtain ⟨key, target⟩ := p
    intro k' hread
    obtain ⟨howner, -, hmethod⟩ := read_of_mem_keys hq (exists_of_found? hp).1 hread
    have howners : (first.compose second).mapNested k.owner = second.mapNested k'.owner := by
      rw [howner]
      exact mapNested_compose_iff.2 hk.owner
    cases kind with
    | field =>
      rw [newName_field_of_bareFields (hbare rfl), newName_field_of_bareFields (hbare rfl)]
      exact congrArg (fun owner => third.fields.getD (bareKey owner target) target) howners
    | method =>
      obtain rfl := hmethod rfl
      congr 1
      show MemberKey.mk _ target _ = MemberKey.mk _ target _
      rw [howners]
      congr 1
      exact hk.descriptor_eq

/-! ## The two compositions -/

/-- **Composing three tables from the left and from the right.** For each symbol of the first table:
what has to hold for the two to give it one new name, and when it does. -/
theorem compose_assoc (hx : first.excluded = []) (hkeys : second.ReadableKeys) :
    (∀ name mid, first.classes.get? name = some mid →
      (AgreeOnClass first second third name ↔
        (Continues second third mid ∧ (third.mapNested (second.mapNested mid) = name →
          (fromLeft first second third).relocate name =
            (fromRight first second third).relocate name)) ∨
        (¬ Continues second third mid ∧
          ((third.mapNested (second.mapNested mid) = name ∧
            (fromLeft first second third).relocate name = (second.compose third).mapNested mid) ∨
          ((second.compose third).mapNested mid = name ∧
            third.mapNested (second.mapNested mid) =
              (fromRight first second third).relocate name))))) ∧
    (first.CanonicalPackages → second.CanonicalPackages → third.CanonicalPackages →
      PackagesContinue first second third →
        ∀ name, (fromLeft first second third).relocate name =
          (fromRight first second third).relocate name) ∧
    ∀ kind key mid k, (kind.names first).get? key = some mid → kind.read key = .ok k →
      (IsFixed kind k.name → AgreeOnMember first second third kind k) ∧
      (¬ IsFixed kind k.name →
        (AgreeOnMember first second third kind k ↔
          AnsweredAlike first second third kind k mid) ∧
        (second.found? kind (first.passOn kind k mid) ≠ none →
          (first.passOn kind k mid).IsReadable → PassedOn first second k →
            (kind = .field → third.BareFields) → AgreeOnMember first second third kind k)) := by
  refine ⟨fun name mid h => agreeOnClass_iff hx h, ?_, ?_⟩
  · intro h₁ h₂ h₃ hpackages name
    exact relocate_congr ((get?_packages_eq_iff h₁ h₂ h₃).2 hpackages) name
  · intro kind key mid k hget hread
    constructor
    · intro hfixed
      unfold AgreeOnMember
      rw [mapMember_of_isFixed hfixed, mapMember_of_isFixed hfixed]
    · intro hname
      have hiff : AgreeOnMember first second third kind k ↔ _ :=
        agreeOnMember_iff hx hget hread hname hkeys
      refine ⟨hiff, fun hfound hq hk hbare => hiff.2 ?_⟩
      exact answeredAlike_of_passedOn hfound hq hk hbare

/-- Three tables that cover each other. -/
theorem compose_assoc_covered :
    let table (source target method name : String) : Table :=
      (empty.addClass source.toList target.toList .null).addMethod method.toList name.toList
    let first := table "a" "b" "a/m (La;)V" "n"
    let second := table "b" "c" "b/n (Lb;)V" "o"
    let third := table "c" "d" "c/o (Lc;)V" "p"
    let k : MemberKey := ⟨"a".toList, "m".toList, some "(La;)V".toList⟩
    first.excluded = [] ∧ second.ReadableKeys ∧
      first.classes.get? "a".toList = some "b".toList ∧
      AgreeOnClass first second third "a".toList ∧
      first.methods.get? k.format = some "n".toList ∧ MemberKey.parseMethod k.format = .ok k ∧
      AgreeOnMember first second third .method k := by
  intro table first second third k
  have hkeys : second.ReadableKeys := by
    rintro (_ | _) key hkey
    · cases hkey
    · obtain rfl := List.mem_singleton.1 hkey
      exact ⟨⟨"b".toList, "n".toList, some "(Lb;)V".toList⟩, rfl⟩
  have hclass : first.classes.get? "a".toList = some "b".toList := by decide
  have hmethod : first.methods.get? k.format = some "n".toList := by decide
  have hread : MemberKey.parseMethod k.format = .ok k := rfl
  have hname : ¬ IsFixed .method k.name := by
    unfold IsFixed
    decide
  have hcontinues : Continues second third "b".toList := mapNested_compose_iff.1 (by decide +kernel)
  have hpassed : PassedOn first second k :=
    ⟨mapNested_compose_iff.1 (by decide +kernel), by decide +kernel, by decide +kernel⟩
  have hassoc := @compose_assoc first second third rfl hkeys
  refine ⟨rfl, hkeys, hclass, ?_, hmethod, hread, ?_⟩
  · exact (hassoc.1 _ _ hclass).2 (.inl ⟨hcontinues, by decide +kernel⟩)
  · refine ((hassoc.2.2 .method _ _ _ hmethod hread).2 hname).2 ?_ ?_ hpassed ?_
    · decide +kernel
    · exact ⟨by decide +kernel, by decide +kernel, by decide, by decide⟩
    · rintro ⟨⟩

/-- Three tables each that do not agree on a class, a field or a method of the first. Classes, in
order: the second table knows nothing of the class; the third lists a class nested in the one that
the second renames; the class is led back to its first name and moved by packages. Members, in
order: the second table knows nothing of the method, or of the field; the class around the owner is
passed on by the second alone; an exact entry for a class of the descriptor is missing in the
second; the new name in the first has a slash; the third has a field by name and descriptor. -/
theorem compose_assoc_ne :
    let table (packages classes fields methods : List (String × String)) : Table :=
      let t := packages.foldl (fun t p => t.addPackage p.1.toList p.2.toList) empty
      let t := classes.foldl (fun t p => t.addClass p.1.toList p.2.toList .null) t
      let t := fields.foldl (fun t p => t.addField p.1.toList p.2.toList) t
      methods.foldl (fun t p => t.addMethod p.1.toList p.2.toList) t
    (∀ x ∈ [("a", table [] [("a", "b")] [] [], table [] [] [] [], table [] [("b", "c")] [] []),
        ("a/X", table [] [("a/X", "b/Y$I")] [] [], table [] [("b/Y", "c/Z")] [] [],
          table [] [("c/Z", "d/W"), ("c/Z$I", "d/V")] [] []),
        ("a/X", table [("a", "q")] [("a/X", "b/Y")] [] [], table [("x", "q")] [("b/Y", "c/Z")] [] [],
          table [("q", "z")] [("c/Z", "a/X")] [] [])],
      (x.2.1.excluded = [] ∧ x.2.2.1.excluded = [] ∧ x.2.2.2.excluded = []) ∧
        x.1.toList ∈ x.2.1.classes.keys ∧ ¬ AgreeOnClass x.2.1 x.2.2.1 x.2.2.2 x.1.toList) ∧
    ∀ x ∈ [(MemberKind.method, "a/m ()V", table [] [] [] [("a/m ()V", "n")], table [] [] [] [],
          table [] [] [] [("a/n ()V", "o")]),
        (.field, "a/f", table [] [] [("a/f", "g")] [], table [] [] [] [],
          table [] [] [("a/g", "h")] []),
        (.method, "a$I/m ()V", table [] [("a", "b")] [] [("a$I/m ()V", "n")],
          table [] [("b", "c"), ("b$I", "d")] [] [("b$I/n ()V", "o")],
          table [] [] [] [("d/o ()V", "p")]),
        (.method, "a/m (La;)V", table [] [("a", "b$I")] [] [("a/m (La;)V", "n")],
          table [] [("b", "c")] [] [("b$I/n (Lb$I;)V", "o")],
          table [] [] [] [("c$I/o (Lc$I;)V", "p")]),
        (.method, "a/m ()V", table [] [] [] [("a/m ()V", "x/y")],
          table [] [("a", "b")] [] [("a/x/y ()V", "z")], table [] [] [] [("a/x/z ()V", "w")]),
        (.field, "a/f I", table [] [] [("a/f I", "g")] [], table [] [] [("a/g", "h")] [],
          table [] [] [("a/h I", "k")] [])],
      (x.2.2.1.excluded = [] ∧ x.2.2.2.1.excluded = [] ∧ x.2.2.2.2.excluded = []) ∧
        (∀ t ∈ [x.2.2.1, x.2.2.2.1, x.2.2.2.2],
          ∀ key ∈ t.fields.keys ++ t.methods.keys, MemberKey.isWellFormed key = true) ∧
        x.2.1.toList ∈ (x.1.names x.2.2.1).keys ∧
        ((x.1.read x.2.1.toList).toOption.map fun k =>
          decide (AgreeOnMember x.2.2.1 x.2.2.2.1 x.2.2.2.2 x.1 k)) = some false := by
  decide +kernel

end Table

end Renaming
