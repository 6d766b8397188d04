import Renaming.Fault

/-!
# `Symbol/Key` — fields and methods as one text

A member is known by its owner, its name and, for methods always, its descriptor. The maps of a
table are keyed by the text `owner/name` or `owner/name descriptor`. The two separators may occur
in the parts as well — slashes in owners and descriptors, blanks in descriptors — so reading cuts
at the first blank and then at the last slash before it; `format` and `parse` are inverse to each
other where that cut falls between the parts.
-/

set_option autoImplicit false

namespace Renaming

/-- The kinds of members. -/
inductive MemberKind where
  | field
  | method
deriving DecidableEq, Repr

/-- The kind of symbol that a kind of member is. -/
def MemberKind.symbol : MemberKind → SymbolKind
  | field => .ofField
  | method => .ofMethod

/-- A field or method with its owner and, when it is known, its descriptor. -/
structure MemberKey where
  owner : Text
  name : Text
  descriptor : Option Text
deriving DecidableEq, Repr

/-- The key text of a member without descriptor. -/
def bareKey (owner name : Text) : Text := owner ++ '/' :: name

def qualifiedKey (owner name descriptor : Text) : Text := bareKey owner name ++ ' ' :: descriptor

namespace MemberKey

/-- The key text, with the descriptor behind a blank when there is one. -/
def format (k : MemberKey) : Text :=
  match k.descriptor with
  | none => bareKey k.owner k.name
  | some d => qualifiedKey k.owner k.name d

/-- The same member without its descriptor. -/
def bare (k : MemberKey) : MemberKey := { k with descriptor := none }

/-- The owner and name in the part of a key before its descriptor. Both have to be there. -/
def parseHead (key head : Text) (descriptor : Option Text) : Except Fault MemberKey :=
  match Text.cutLast '/' head with
  | some (owner, name) =>
    if owner.isEmpty || name.isEmpty then .error (.keyWithoutOwner key)
    else .ok ⟨owner, name, descriptor⟩
  | none => .error (.keyWithoutOwner key)

/-- Reads a key: the descriptor stands behind the first blank, the name behind the last slash
before it. -/
def parse (key : Text) : Except Fault MemberKey :=
  match Text.cut ' ' key with
  | some (head, descriptor) => parseHead key head (some descriptor)
  | none => parseHead key key none

/-- Reads the key of a method, which has a descriptor that is not empty. -/
def parseMethod (key : Text) : Except Fault MemberKey := do
  let k ← parse key
  match k.descriptor with
  | some (_ :: _) => .ok k
  | _ => .error (.keyWithoutDescriptor key)

/-- Whether the key has the shape of a member key. -/
def isWellFormed (key : Text) : Bool := (parse key).toOption.isSome

end MemberKey

/-- The names that the machine gives to instance and class initialisers; they are never renamed. -/
def isConstructor (name : Text) : Bool :=
  name == "<init>".toList || name == "<clinit>".toList

end Renaming
