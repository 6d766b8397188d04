import Renaming.Symbol.Descriptor
import Renaming.Symbol.Package
import Renaming.Symbol.Nesting
import Renaming.Datum.Same
import Renaming.OrderedMap

/-!
# `Table/Entry` — one renamed symbol

An entry keeps what the plain maps of a table forget: both names of a symbol side by side and the
comment somebody attached to it. Class entries consist of two names; member entries have an owner
and a signature on each side, because both change along with the classes around the member.

A signature is a descriptor. A structured document may spell it as a collection of pieces; it is
then kept as it was written, and is renamed as a whole to the pieces joined together.
-/

set_option autoImplicit false

namespace Renaming

/-- The descriptor of a member as its entry records it. -/
inductive Signature where
  | text (t : Text)
  /-- A collection of texts, together with the text they make when joined. -/
  | joined (value : Datum) (t : Text)

namespace Signature

/-- The signature in writing. -/
def written : Signature → Text
  | text t => t
  | joined v _ => v.written

/-- The signature with its classes renamed. The pieces of a collection are joined as they are. -/
def rename (f : Text → Text) : Signature → Text
  | text t => Descriptor.rename f t
  | joined _ t => t

/-- Whether two signatures are one value. Pieces are texts, so comparing them has an end. -/
def same : Signature → Signature → Bool
  | text s, text t => s == t
  | joined v _, joined w _ => (v.same? w).getD false
  | _, _ => false

/-- Whether a piece reads like the start of a class name, which would have to be searched
further. -/
def opensName : Part → Bool
  | .atom (.text t) => t == ['L']
  | _ => false

/-- Joins the pieces of a collection, which have to be texts. -/
def join (pieces : List Part) : Except ValueFault Text :=
  if pieces.any opensName then .error .notRecord
  else
    pieces.foldrM (fun p acc =>
      match p with
      | .atom (.text t) => .ok (t ++ acc)
      | _ => .error .wrongKind) []

/-- The values under the keys zero, one, two and so on of a mapping, up to the first that is
missing or cannot be searched. -/
def indexed (entries : List (Atom × Part)) : List Nat → Except ValueFault (List Part)
  | [] => .ok []
  | i :: r =>
    match Atom.get? (.int i) entries with
    | none => .error .missingKey
    | some p => if opensName p then .error .notRecord else (p :: ·) <$> indexed entries r

/-- The pieces of a collection. -/
def pieces : Collection → Except ValueFault (List Part)
  | .list items => .ok items
  | .mapping entries => indexed entries (List.range entries.length)
  | .pairs [] | .set [] => .ok []
  | .pairs _ | .set _ => .error .wrongKind

/-- The signature that a value of a document stands for; none for null. -/
def ofDatum? : Datum → Except ValueFault (Option Signature)
  | .null => .ok none
  | .text t => .ok (some (.text t))
  | .atom (.bytes []) => .ok (some (.joined (.atom (.bytes [])) []))
  | .atom _ => .error .wrongKind
  | .collection s n => do
    return some (.joined (.collection s n) (← join (← pieces (s.get n))))

end Signature

/-- A member on one side of a rename. -/
structure Identity where
  owner : Text
  name : Text
  signature : Option Signature

namespace Identity

/-- The identity of a member that a key names, with the descriptor of the key as its signature. -/
def ofKey (k : MemberKey) : Identity := ⟨k.owner, k.name, k.descriptor.map .text⟩

/-- The key of a member under which its entry is found. A field goes by its name alone; a method
without signature shows so. -/
def keyText (kind : MemberKind) (i : Identity) : Text :=
  match kind with
  | .field => bareKey i.owner i.name
  | .method => qualifiedKey i.owner i.name ((i.signature.map Signature.written).getD "None".toList)

def same (a b : Identity) : Bool :=
  a.owner == b.owner && a.name == b.name &&
    match a.signature, b.signature with
    | none, none => true
    | some s, some t => s.same t
    | _, _ => false

end Identity

/-- A renamed symbol with both its names and its comment. -/
inductive Entry where
  | ofClass (source target : Text) (comment : Datum)
  | ofMember (kind : MemberKind) (source target : Identity) (comment : Datum)

instance : Inhabited Entry := ⟨.ofClass [] [] .null⟩

namespace Entry

def kind : Entry → SymbolKind
  | ofClass .. => .ofClass
  | ofMember k .. => k.symbol

def sourceName : Entry → Text
  | ofClass s .. => s
  | ofMember _ s .. => s.name

def targetName : Entry → Text
  | ofClass _ t _ => t
  | ofMember _ _ t _ => t.name

/-- What somebody noted about the symbol, null for nothing. -/
def comment : Entry → Datum
  | ofClass _ _ c => c
  | ofMember _ _ _ c => c

def sourceKey : Entry → Text
  | ofClass s .. => s
  | ofMember k s .. => s.keyText k

def targetKey : Entry → Text
  | ofClass _ t _ => t
  | ofMember k _ t _ => t.keyText k

def hasComment (e : Entry) : Bool := e.comment.isPresent

/-- The entry of the opposite rename: both sides change places, and the comment stays. -/
def reversed : Entry → Entry
  | ofClass s t c => ofClass t s c
  | ofMember k s t c => ofMember k t s c

/-- Whether two entries name the same symbols. -/
def sameSymbol : Entry → Entry → Bool
  | ofClass s t _, ofClass s' t' _ => s == s' && t == t'
  | ofMember k s t _, ofMember k' s' t' _ => k == k' && s.same s' && t.same t'
  | _, _ => false

/-- Whether two entries say the same, none where comparing their comments has no end. -/
def same? (a b : Entry) : Option Bool :=
  if a.sameSymbol b then a.comment.same? b.comment else some false

/-- Turning an entry round twice gives it back. -/
@[simp] theorem reversed_reversed (e : Entry) : e.reversed.reversed = e := by cases e <;> rfl

@[simp] theorem targetKey_reversed (e : Entry) : e.reversed.targetKey = e.sourceKey := by
  cases e <;> rfl

@[simp] theorem kind_reversed (e : Entry) : e.reversed.kind = e.kind := by cases e <;> rfl

end Entry

end Renaming
