import Renaming.Proofs.Symbol.Descriptor
import Renaming.Proofs.Text.Span

/-!
# `Proofs/Symbol/Display` — display types and the descriptors they stand for

A display type is a keyword, the name of a class, or the type of arrays of another one. Its spelling
ends in one pair of brackets for each dimension, its descriptor begins with one bracket for each, so
the one is turned into the other by induction on the type (`DisplayType.ofDisplay_text`). The
classes in such a descriptor are those of the type, and

> renaming the classes of a descriptor is the same as writing it with other names
> (`MemberType.rename_descriptor`).
-/

set_option autoImplicit false

namespace Renaming

/-- The types that are no classes, and the absence of a value. -/
inductive Primitive where
  | void
  | boolean
  | byte
  | char
  | short
  | int
  | long
  | float
  | double
deriving DecidableEq, Repr

namespace Primitive

def all : List Primitive := [void, boolean, byte, char, short, int, long, float, double]

theorem mem_all (p : Primitive) : p ∈ all := by
  cases p <;> decide

def keyword : Primitive → Text
  | void => "void".toList
  | boolean => "boolean".toList
  | byte => "byte".toList
  | char => "char".toList
  | short => "short".toList
  | int => "int".toList
  | long => "long".toList
  | float => "float".toList
  | double => "double".toList

def letter : Primitive → Char
  | void => 'V'
  | boolean => 'Z'
  | byte => 'B'
  | char => 'C'
  | short => 'S'
  | int => 'I'
  | long => 'J'
  | float => 'F'
  | double => 'D'

end Primitive

/-- A type as source code spells it. The name of a class is dotted. -/
inductive DisplayType where
  | primitive (p : Primitive)
  | named (name : Text)
  | array (element : DisplayType)
deriving DecidableEq, Repr

namespace DisplayType

def text : DisplayType → Text
  | primitive p => p.keyword
  | named name => name
  | array element => element.text ++ ['[', ']']

/-- The descriptor of a type, with other names for its classes. -/
def descriptor (rename : Text → Text) : DisplayType → Text
  | primitive p => [p.letter]
  | named name => 'L' :: rename (Descriptor.internalName name) ++ [';']
  | array element => '[' :: element.descriptor rename

/-- The characters that end a name in a display type, or the row it stands in. -/
def marks : List Char := ['(', ')', '[', ']', ':', ';', ',', '#']

/-- A class is a word without marks and no keyword. -/
def IsPlain : DisplayType → Prop
  | primitive _ => True
  | named name => name.IsWordWithout marks ∧ ∀ p ∈ Primitive.all, name ≠ p.keyword
  | array element => element.IsPlain

instance : (t : DisplayType) → Decidable t.IsPlain
  | primitive _ => inferInstanceAs (Decidable True)
  | named name =>
    have : Decidable (∀ p ∈ Primitive.all, name ≠ p.keyword) := List.decidableBAll _ _
    inferInstanceAs (Decidable (_ ∧ _))
  | array element => instDecidableIsPlain element

/-! ## The spelling of a type -/

variable {t : DisplayType}

theorem isWordWithout_keyword (p : Primitive) : p.keyword.IsWordWithout marks := by
  have hall : ∀ p ∈ Primitive.all, p.keyword.IsWordWithout marks := by decide
  exact hall p p.mem_all

theorem isField_brackets : Text.IsField ['[', ']'] := by decide

/-- The brackets are those of an array. -/
theorem notMem_text (h : t.IsPlain) {c : Char} (hc : c ∈ marks) (hbracket : c ≠ '[' ∧ c ≠ ']') :
    c ∉ t.text := by
  induction t with
  | primitive p => exact (isWordWithout_keyword p).2 c hc
  | named name => exact h.1.2 c hc
  | array element ih =>
    rw [text, List.mem_append]
    rintro (hmem | hmem)
    · exact ih h hmem
    · rcases List.mem_cons.1 hmem with heq | hmem
      · exact hbracket.1 heq
      · exact hbracket.2 (List.mem_singleton.1 hmem)

theorem isField_text (h : t.IsPlain) : t.text.IsField := by
  induction t with
  | primitive p => exact (isWordWithout_keyword p).1
  | named name => exact h.1.1
  | array element ih => exact Text.isField_append (ih h) isField_brackets.2

/-! ## From the spelling to the descriptor -/

theorem dropBrackets_of_notMem {r : Text} (h : ']' ∉ r) : Descriptor.dropBrackets r = (0, r) := by
  unfold Descriptor.dropBrackets
  split
  · exact absurd List.mem_cons_self h
  · rfl

theorem primitive?_keyword (p : Primitive) : Descriptor.primitive? p.keyword = some p.letter := by
  cases p <;> decide

theorem primitive?_eq_none {name : Text} (h : ∀ p ∈ Primitive.all, name ≠ p.keyword) :
    Descriptor.primitive? name = none := by
  have hkeywords : ∀ q ∈ [("void", 'V'), ("boolean", 'Z'), ("byte", 'B'), ("char", 'C'),
      ("short", 'S'), ("int", 'I'), ("long", 'J'), ("float", 'F'), ("double", 'D')],
      ∃ p ∈ Primitive.all, q.1.toList = p.keyword := by decide
  unfold Descriptor.primitive?
  rw [List.findSome?_eq_none_iff]
  intro q hq
  obtain ⟨p, hp, hkeyword⟩ := hkeywords q hq
  rw [hkeyword, if_neg fun heq => h p hp heq.symm]

/-- One pair of brackets behind the spelling is one bracket before the descriptor. -/
theorem ofDisplay_array {s : Text} (hs : s.IsField) :
    Descriptor.ofDisplay (s ++ ['[', ']']) = '[' :: Descriptor.ofDisplay s := by
  have hfield : (s ++ ['[', ']']).IsField := Text.isField_append hs isField_brackets.2
  have hreverse : (s ++ ['[', ']']).reverse = ']' :: '[' :: s.reverse := by simp
  unfold Descriptor.ofDisplay
  rw [hfield.trim_eq, hs.trim_eq, hreverse, Descriptor.dropBrackets]
  rfl

theorem ofDisplay_of_notMem {s : Text} (hs : s.IsField) (hbracket : ']' ∉ s) :
    Descriptor.ofDisplay s =
      match Descriptor.primitive? s with
      | some c => [c]
      | none => 'L' :: Descriptor.internalName s ++ [';'] := by
  have hreverse : ']' ∉ s.reverse := by
    rw [List.mem_reverse]
    exact hbracket
  unfold Descriptor.ofDisplay
  rw [hs.trim_eq, dropBrackets_of_notMem hreverse]
  dsimp only
  rw [List.reverse_reverse]
  rfl

/-- **A display type is turned into its descriptor.** -/
theorem ofDisplay_text (h : t.IsPlain) : Descriptor.ofDisplay t.text = t.descriptor id := by
  induction t with
  | primitive p =>
    have hbracket : ∀ p ∈ Primitive.all, ']' ∉ p.keyword := by decide
    have hfield : p.keyword.IsField := isField_text (t := primitive p) h
    show Descriptor.ofDisplay p.keyword = _
    rw [ofDisplay_of_notMem hfield (hbracket p p.mem_all), primitive?_keyword]
    rfl
  | named name =>
    show Descriptor.ofDisplay name = _
    rw [ofDisplay_of_notMem h.1.1 (h.1.2 ']' (by decide)), primitive?_eq_none h.2]
    rfl
  | array element ih =>
    show Descriptor.ofDisplay (element.text ++ ['[', ']']) = _
    rw [ofDisplay_array (isField_text (t := element) h), ih h]
    rfl

/-! ## Renaming the classes of a type -/

theorem notMem_internalName {name : Text} {c : Char} (hslash : c ≠ '/') (h : c ∉ name) :
    c ∉ Descriptor.internalName name := by
  unfold Descriptor.internalName Text.replaceChar
  rw [List.mem_map]
  rintro ⟨d, hd, heq⟩
  split at heq
  · exact hslash heq.symm
  · exact h (heq ▸ hd)

theorem isField_internalName {name : Text} (h : name.IsField) :
    (Descriptor.internalName name).IsField := by
  unfold Descriptor.internalName Text.replaceChar
  refine ⟨fun hnil => h.1 (List.map_eq_nil_iff.1 hnil), fun c hc => ?_⟩
  obtain ⟨d, hd, rfl⟩ := List.mem_map.1 hc
  split
  · decide
  · exact h.2 d hd

/-- A descriptor is a word as long as the names in it are. -/
theorem isField_descriptor (h : t.IsPlain) {rename : Text → Text}
    (hrename : ∀ name : Text, name.IsField → (rename name).IsField) :
    (t.descriptor rename).IsField := by
  induction t with
  | primitive p =>
    have hall : ∀ p ∈ Primitive.all, Text.IsField [p.letter] := by decide
    exact hall p p.mem_all
  | named name =>
    have hname := hrename _ (isField_internalName h.1.1)
    refine ⟨List.cons_ne_nil _ _, List.forall_mem_cons.2 ⟨by decide, ?_⟩⟩
    exact List.forall_mem_append.2 ⟨hname.2, (show Text.IsField [';'] by decide).2⟩
  | array element ih =>
    exact ⟨List.cons_ne_nil _ _, List.forall_mem_cons.2 ⟨by decide, (ih h).2⟩⟩

theorem startsWith_descriptor (rename : Text → Text) (t : DisplayType) :
    Text.startsWith ['('] (t.descriptor rename) = false := by
  cases t with
  | primitive p => cases p <;> rfl
  | named | array => rfl

/-- The descriptor of a type as pieces. -/
def pieces : DisplayType → List Descriptor.Piece
  | primitive p => [.mark p.letter]
  | named name => [.className (Descriptor.internalName name)]
  | array element => .mark '[' :: element.pieces

theorem descriptor_eq (rename : Text → Text) (t : DisplayType) :
    t.descriptor rename = Descriptor.ofPieces (t.pieces.map (Descriptor.Piece.rename rename)) := by
  induction t with
  | primitive p => rfl
  | named name =>
    simp [descriptor, pieces, Descriptor.ofPieces, Descriptor.Piece.rename, Descriptor.Piece.text]
  | array element ih =>
    rw [descriptor, ih]
    rfl

theorem isReadable_append (h : t.IsPlain) {ps : List Descriptor.Piece}
    (hps : Descriptor.IsReadable ps) : Descriptor.IsReadable (t.pieces ++ ps) := by
  induction t with
  | primitive p => exact .mark (by cases p <;> decide) hps
  | named name => exact .className (notMem_internalName (by decide) (h.1.2 ';' (by decide))) hps
  | array element ih => exact .mark (by decide) (ih h)

theorem isReadable_flatMap {ts : List DisplayType} (h : ∀ t ∈ ts, t.IsPlain)
    {ps : List Descriptor.Piece} (hps : Descriptor.IsReadable ps) :
    Descriptor.IsReadable (ts.flatMap pieces ++ ps) := by
  induction ts with
  | nil => exact hps
  | cons t ts ih =>
    rw [List.forall_mem_cons] at h
    rw [List.flatMap_cons, List.append_assoc]
    exact isReadable_append h.1 (ih h.2)

end DisplayType

/-! ## Members -/

/-- The type of a field, or the parameter types and the result of a method. -/
structure MemberType where
  parameters : Option (List DisplayType)
  type : DisplayType
deriving DecidableEq, Repr

namespace MemberType

/-- The descriptor of a member, with other names for its classes. -/
def descriptor (rename : Text → Text) (t : MemberType) : Text :=
  match t.parameters with
  | none => t.type.descriptor rename
  | some ps => '(' :: ps.flatMap (DisplayType.descriptor rename) ++ ')' :: t.type.descriptor rename

structure IsPlain (t : MemberType) : Prop where
  parameters : ∀ ps ∈ t.parameters, ∀ p ∈ ps, p.IsPlain
  type : t.type.IsPlain

/-- The descriptor of a member as pieces. -/
def pieces (t : MemberType) : List Descriptor.Piece :=
  match t.parameters with
  | none => t.type.pieces
  | some ps => .mark '(' :: (ps.flatMap DisplayType.pieces ++ .mark ')' :: t.type.pieces)

theorem descriptor_eq (rename : Text → Text) (t : MemberType) :
    t.descriptor rename = Descriptor.ofPieces (t.pieces.map (Descriptor.Piece.rename rename)) := by
  obtain ⟨parameters, type⟩ := t
  cases parameters with
  | none => exact type.descriptor_eq rename
  | some ps =>
    have hps : ps.flatMap (DisplayType.descriptor rename) = Descriptor.ofPieces
        ((ps.flatMap DisplayType.pieces).map (Descriptor.Piece.rename rename)) := by
      rw [Descriptor.ofPieces, List.map_flatMap, List.flatMap_assoc]
      exact List.flatMap_congr fun t _ => t.descriptor_eq rename
    show '(' :: ps.flatMap _ ++ ')' :: type.descriptor rename = _
    rw [hps, type.descriptor_eq rename]
    simp [pieces, Descriptor.ofPieces, Descriptor.Piece.rename, Descriptor.Piece.text]

theorem IsPlain.isReadable {t : MemberType} (h : t.IsPlain) : Descriptor.IsReadable t.pieces := by
  obtain ⟨parameters, type⟩ := t
  have htype : Descriptor.IsReadable type.pieces := by
    have := DisplayType.isReadable_append h.type .nil
    rwa [List.append_nil] at this
  cases parameters with
  | none => exact htype
  | some ps =>
    apply Descriptor.IsReadable.mark (by decide)
    exact DisplayType.isReadable_flatMap (h.parameters ps rfl) (.mark (by decide) htype)

/-- **Renaming the classes of a descriptor is writing it with other names.** -/
theorem rename_descriptor {t : MemberType} (h : t.IsPlain) (rename : Text → Text) :
    Descriptor.rename rename (t.descriptor id) = t.descriptor rename := by
  have hid : t.pieces.map (Descriptor.Piece.rename id) = t.pieces := by
    refine (List.map_congr_left fun p _ => ?_).trans (List.map_id _)
    cases p <;> rfl
  rw [descriptor_eq, hid, Descriptor.rename, Descriptor.pieces_ofPieces h.isReadable, descriptor_eq]

theorem IsPlain.isField_descriptor {t : MemberType} (h : t.IsPlain) {rename : Text → Text}
    (hrename : ∀ name : Text, name.IsField → (rename name).IsField) :
    (t.descriptor rename).IsField := by
  have htype := DisplayType.isField_descriptor h.type hrename
  unfold descriptor
  cases hps : t.parameters with
  | none => exact htype
  | some ps =>
    have hparameters : ∀ c ∈ ps.flatMap (DisplayType.descriptor rename), Text.isBlank c = false := by
      intro c hc
      obtain ⟨p, hp, hcp⟩ := List.mem_flatMap.1 hc
      exact (DisplayType.isField_descriptor (h.parameters ps hps p hp) hrename).2 c hcp
    refine ⟨List.cons_ne_nil _ _, List.forall_mem_cons.2 ⟨by decide, ?_⟩⟩
    exact List.forall_mem_append.2 ⟨hparameters, List.forall_mem_cons.2 ⟨by decide, htype.2⟩⟩

/-- The descriptor tells whether there are parameters. -/
theorem startsWith_descriptor (rename : Text → Text) (t : MemberType) :
    Text.startsWith ['('] (t.descriptor rename) = t.parameters.isSome := by
  obtain ⟨parameters, type⟩ := t
  cases parameters with
  | none => exact type.startsWith_descriptor rename
  | some ps => rfl

end MemberType

end Renaming
