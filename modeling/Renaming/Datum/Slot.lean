import Renaming.Datum.Atom

/-!
# `Datum/Slot` — the order of the members of a set

A set lists its members by the slots they are kept in, not in the order in which they came. There
are a power of two of slots, more than twice as many as members unless these are few. The slot of a
number follows from its residue: numbers that are one have one residue, whatever their kinds. A
number whose slot is taken goes to the next free one of a sequence that visits every slot.

Values other than numbers have no residue. A set with such a member lists its members in the order
in which they came.
-/

set_option autoImplicit false

namespace Renaming

namespace Atom

/-- The prime by which numbers are reduced. Two is a root of unity modulo this prime, so halves and
their like have residues too. -/
def residuePrime : Nat := Nat.pow 2 61 - 1

/-- A residue with the sign of its number. Minus one is no residue, and minus two stands for it. -/
def signedResidue (negative : Bool) (r : Nat) : Int :=
  if negative then (if r = 1 then -2 else -(r : Int)) else r

def residue? (a : Atom) : Option Int :=
  a.number?.map fun
    | .inl n => signedResidue (n < 0) (n.natAbs % residuePrime)
    | .inr x =>
      if x.isInf then (if x < 0 then -314159 else 314159)
      else
        let (negative, b) := exactFloat x
        signedResidue negative (b.mantissa * Nat.pow 2 (b.exponent % 61).toNat % residuePrime)

/-! ## Slots -/

/-- The number of slots for a number of members. -/
def slotCount (members : Nat) : Nat := if members < 5 then 8 else Nat.pow 2 ((2 * members).log2 + 1)

/-- The slots that are looked at before the sequence goes on: ten in a row from `i` on if there are
as many, else `i` alone. -/
def slotRun (count i : Nat) : List Nat := if i + 9 < count then List.range' i 10 else [i]

/-- The first free slot of the sequence from `i` on. What is left of the residue, `rest`, goes into
the sequence until it is used up; from then on every slot is visited, which bounds the search. -/
def freeSlot (slots : Array (Option Atom)) : Nat → Nat → Nat → Nat
  | 0, _, i => i
  | n + 1, rest, i =>
    match (slotRun slots.size i).find? fun j => (slots.getD j none).isNone with
    | some j => j
    | none => freeSlot slots n (rest / 32) ((5 * i + 1 + rest / 32) % slots.size)

/-- Puts a member with a residue into its slot. -/
def placed (slots : Array (Option Atom)) (member : Atom × Int) : Array (Option Atom) :=
  let start := (member.2 % ((Nat.pow 2 64 : Nat) : Int)).toNat
  slots.setIfInBounds (freeSlot slots (slots.size + 14) start (start % slots.size)) (some member.1)

/-- Different members as their set lists them. -/
def inSlotOrder (members : List Atom) : List Atom :=
  match members.mapM residue? with
  | none => members
  | some residues =>
    let slots := Array.replicate (slotCount members.length) none
    ((members.zip residues).foldl placed slots).toList.filterMap id

end Atom

end Renaming
