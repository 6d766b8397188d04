import Renaming.Decimal.Layout
import Renaming.Text.Quoted

/-!
# `Datum/Atom` — the values without parts

A structured document is made of atoms and of collections of them. `Atom` is the type of the
former: nothing, truth values, numbers, texts, dates and bytes. Atoms are also the keys of
mappings and the members of sets.

`same` is the equality under which two keys are one key. Numbers are compared by value, whatever
their kind, and a truth value counts as zero or one. A value that is no number is equal to none,
itself included, so as a key it is known by where it arose: all those that are spelt as the
special value are one, and every other is one with itself alone.
-/

set_option autoImplicit false

namespace Renaming

/-- A day of the proleptic Gregorian calendar. -/
structure Date where
  year : Nat
  month : Nat
  day : Nat
deriving DecidableEq, Repr

/-- A time of day, with its offset from universal time in minutes when one was given. -/
structure Moment where
  date : Date
  hour : Nat
  minute : Nat
  second : Nat
  microsecond : Nat
  offset : Option Int
deriving DecidableEq, Repr

/-- Where a value that is no number arose. -/
inductive NanOrigin where
  /-- It is spelt as the special value. -/
  | spelt
  /-- It came out of reading the scalar with this number in this document. -/
  | computed (document scalar : Nat)
deriving DecidableEq, Repr

/-- A value without parts. -/
inductive Atom where
  | null
  | bool (b : Bool)
  | int (n : Int)
  /-- A double that is a number or infinite. -/
  | float (x : Float)
  /-- The double that is no number. -/
  | nan (origin : NanOrigin)
  | text (t : Text)
  | date (d : Date)
  | moment (m : Moment)
  | bytes (bs : List UInt8)

instance : Inhabited Atom := ⟨.null⟩

namespace Date

/-- Leap years are those divisible by four, centuries only when divisible by four hundred. -/
def isLeap (year : Nat) : Bool := year % 4 == 0 && (year % 100 != 0 || year % 400 == 0)

/-- The number of days of a month, zero for a month that does not exist. -/
def daysIn (year month : Nat) : Nat :=
  match month with
  | 2 => if isLeap year then 29 else 28
  | 4 | 6 | 9 | 11 => 30
  | 1 | 3 | 5 | 7 | 8 | 10 | 12 => 31
  | _ => 0

/-- Whether the calendar has this day. Years run from 1 to 9999. -/
def isValid (d : Date) : Bool :=
  1 ≤ d.year && d.year ≤ 9999 && 1 ≤ d.day && d.day ≤ daysIn d.year d.month

/-- The days before the first of January of a year, counted from year one. -/
def daysBeforeYear (year : Nat) : Nat :=
  let y := year - 1
  y * 365 + y / 4 - y / 100 + y / 400

/-- The number of a day, counted from the first day of year one. -/
def ordinal (d : Date) : Nat :=
  daysBeforeYear d.year +
    (List.range (d.month - 1)).foldl (fun n m => n + daysIn d.year (m + 1)) 0 + d.day

end Date

namespace Moment

/-- Whether the day exists, the time of day does, and the offset is less than a day. -/
def isValid (m : Moment) : Bool :=
  m.date.isValid && m.hour < 24 && m.minute < 60 && m.second < 60 &&
    m.offset.all fun o => -1440 < o && o < 1440

/-- The seconds of universal time up to a moment, as far as its own clock shows them. -/
def seconds (m : Moment) : Int :=
  (((m.date.ordinal : Int) * 24 + m.hour) * 60 + m.minute - m.offset.getD 0) * 60 + m.second

/-- Moments are one when their clocks agree, compared in universal time if both have an offset. -/
def same (a b : Moment) : Bool :=
  a.offset.isSome == b.offset.isSome && a.seconds == b.seconds && a.microsecond == b.microsecond

end Moment

namespace Atom

def ofFloat (origin : NanOrigin) (x : Float) : Atom := if x.isNaN then nan origin else float x

/-- Whether something is there: not null, not false, not zero and not empty. -/
def isPresent : Atom → Bool
  | null => false
  | bool b => b
  | int n => n != 0
  | float x => x != 0
  | text t => !t.isEmpty
  | nan _ | date _ | moment _ => true
  | bytes bs => !bs.isEmpty

/-! ## Sameness -/

/-- The sign and the exact magnitude of a finite double. -/
def exactFloat (x : Float) : Bool × Decimal.Binary := (x < 0, Decimal.Binary.ofBits x.toBits)

/-- Whether an integer and a double are one number. -/
def sameIntFloat (n : Int) (x : Float) : Bool :=
  if x.isNaN || x.isInf then false
  else
    let (negative, b) := exactFloat x
    let magnitude :=
      n.natAbs * Nat.pow 2 (-b.exponent).toNat == b.mantissa * Nat.pow 2 b.exponent.toNat
    magnitude && (n == 0 || (n < 0) == negative)

def number? : Atom → Option (Int ⊕ Float)
  | bool b => some (.inl (if b then 1 else 0))
  | int n => some (.inl n)
  | float x => some (.inr x)
  | _ => none

/-- Whether two numbers are one, whatever their kinds. -/
def sameNumber : Int ⊕ Float → Int ⊕ Float → Bool
  | .inl m, .inl n => m == n
  | .inl n, .inr x => sameIntFloat n x
  | .inr x, .inl n => sameIntFloat n x
  | .inr x, .inr y => x == y

def same : Atom → Atom → Bool
  | null, null => true
  | nan a, nan b => a = b
  | text s, text t => s == t
  | date d, date e => d == e
  | moment m, moment n => m.same n
  | bytes a, bytes b => a == b
  | a, b =>
    match a.number?, b.number? with
    | some m, some n => sameNumber m n
    | _, _ => false

/-- Whether two atoms that stand alone are unequal, as a value that is no number always is. -/
def differs : Atom → Atom → Bool
  | nan _, _ => true
  | a, b => !a.same b

/-! ## Keys -/

section Keyed

variable {α : Type}

def get? (key : Atom) : List (Atom × α) → Option α
  | [] => none
  | (k, v) :: r => if same k key then some v else get? key r

/-- The entries with a value under a key. The first spelling of a key and its place stay. -/
def put (key : Atom) (value : α) : List (Atom × α) → List (Atom × α)
  | [] => [(key, value)]
  | (k, v) :: r => if same k key then (k, value) :: r else (k, v) :: put key value r

end Keyed

end Atom

end Renaming
