import Renaming.Datum.Basic
import Renaming.Text.Digit

/-!
# `Datum/Written` — values of a structured document as text

A name that is no text is written out, and so is a comment that is joined with another. There are
two forms: `literal`, as a value stands inside a collection, with text between quotes; and
`written`, as it stands alone, with text as it is and dates in their international form. Where a
collection stands inside itself, dots are written for it.

Every value has its written form, but integers that are too long are refused to be written
(`isWritable`).
-/

set_option autoImplicit false

namespace Renaming

namespace Text

/-- The texts with a comma and a space between them. -/
def commaSeparated : List Text → Text
  | [] => []
  | [t] => t
  | t :: u :: ts => t ++ ',' :: ' ' :: commaSeparated (u :: ts)

end Text

namespace Date

/-- Year, month and day, joined by hyphens. -/
def written (d : Date) : Text :=
  Text.padded 4 d.year ++ '-' :: Text.padded 2 d.month ++ '-' :: Text.padded 2 d.day

/-- Year, month and day as a constructor's arguments. -/
def arguments (d : Date) : List Text := [Text.ofNat d.year, Text.ofNat d.month, Text.ofNat d.day]

end Date

namespace Moment

/-- An offset as hours and minutes after its sign. -/
def writtenOffset (o : Int) : Text :=
  (if o < 0 then '-' else '+') :: Text.padded 2 (o.natAbs / 60) ++ ':' ::
    Text.padded 2 (o.natAbs % 60)

/-- Date and time of day, with six places of a second when they are not all zero. -/
def written (m : Moment) : Text :=
  m.date.written ++ ' ' :: Text.padded 2 m.hour ++ ':' :: Text.padded 2 m.minute ++ ':' ::
    Text.padded 2 m.second ++
    (if m.microsecond = 0 then [] else '.' :: Text.padded 6 m.microsecond) ++
    (m.offset.map writtenOffset).getD []

/-- An offset as a constructor's argument: whole days and the seconds beyond them. -/
def offsetArgument (o : Int) : Text :=
  if o = 0 then "tzinfo=datetime.timezone.utc".toList
  else
    let seconds := Text.ofNat (60 * (Int.fmod o 1440).toNat)
    let delta :=
      if o < 0 then "days=-1, seconds=".toList ++ seconds else "seconds=".toList ++ seconds
    "tzinfo=datetime.timezone(datetime.timedelta(".toList ++ delta ++ "))".toList

/-- The arguments of a moment; seconds and microseconds are left out while they are zero. -/
def arguments (m : Moment) : List Text :=
  m.date.arguments ++ [Text.ofNat m.hour, Text.ofNat m.minute] ++
    (if m.microsecond ≠ 0 then [Text.ofNat m.second, Text.ofNat m.microsecond]
     else if m.second ≠ 0 then [Text.ofNat m.second] else []) ++
    (m.offset.map offsetArgument).toList

end Moment

namespace Atom

/-- Bytes between quotes. Printable ASCII stands for itself. -/
def literalBytes (bs : List UInt8) : Text :=
  let cs := bs.map fun b => Char.ofNat b.toNat
  let q := Text.quoteMark cs
  let escape (c : Char) : Text :=
    if c.toNat < 0x80 then Text.escapeChar q c else '\\' :: 'x' :: Text.hexadecimal 2 c.toNat
  'b' :: q :: cs.flatMap escape ++ [q]

/-- An atom as it stands inside a collection. -/
def literal : Atom → Text
  | null => "None".toList
  | bool b => if b then "True".toList else "False".toList
  | int n => Text.ofInt n
  | float x => Decimal.ofFloat x
  | nan _ => "nan".toList
  | text t => Text.quoted t
  | date d => "datetime.date(".toList ++ Text.commaSeparated d.arguments ++ [')']
  | moment m => "datetime.datetime(".toList ++ Text.commaSeparated m.arguments ++ [')']
  | bytes bs => literalBytes bs

/-- An atom as it stands alone. -/
def written : Atom → Text
  | text t => t
  | date d => d.written
  | moment m => m.written
  | a => a.literal

/-- Whether an atom is no integer that is too long to be written. -/
def isWritable : Atom → Bool
  | int n => n.natAbs < Nat.pow 10 Text.maxDigits
  | _ => true

end Atom

namespace Datum

def bracketed (opening closing : Char) (parts : List Text) : Text :=
  opening :: Text.commaSeparated parts ++ [closing]

/-- Dots in place of a collection that stands inside itself. -/
def again : Collection → Text
  | .list _ | .pairs _ => "[...]".toList
  | .mapping _ => bracketed '\x7b' '\x7d' ["...".toList]
  | .set _ => "set(...)".toList

/-- A part as it stands inside a collection. The collections around it are in `path`. -/
def literal (s : Store) : Nat → List Nat → Part → Text
  | _, _, .atom a => a.literal
  | 0, _, .link n => again (s.get n)
  | fuel + 1, path, .link n =>
    if n ∈ path then again (s.get n)
    else
      let inner := literal s fuel (n :: path)
      match s.get n with
      | .list items => bracketed '[' ']' (items.map inner)
      | .pairs items =>
        bracketed '[' ']' (items.map fun p => bracketed '(' ')' [inner p.1, inner p.2])
      | .mapping entries =>
        bracketed '\x7b' '\x7d'
          (entries.map fun e => e.1.literal ++ ':' :: ' ' :: inner e.2)
      | .set [] => "set()".toList
      | .set (a :: as) => bracketed '\x7b' '\x7d' ((a :: as).map Atom.literal)

/-- Whether no integer in a part is too long to be written. -/
def isWritablePart (s : Store) : Nat → List Nat → Part → Bool
  | _, _, .atom a => a.isWritable
  | 0, _, .link _ => true
  | fuel + 1, path, .link n =>
    n ∈ path ||
      let inner := isWritablePart s fuel (n :: path)
      match s.get n with
      | .list items => items.all inner
      | .pairs items => items.all fun p => inner p.1 && inner p.2
      | .mapping entries => entries.all fun e => e.1.isWritable && inner e.2
      | .set members => members.all Atom.isWritable

/-- A value as it stands alone. -/
def written : Datum → Text
  | atom a => a.written
  | collection s n => literal s (s.size + 1) [] (.link n)

/-- Whether no integer in a value is too long to be written. -/
def isWritable : Datum → Bool
  | atom a => a.isWritable
  | collection s n => isWritablePart s (s.size + 1) [] (.link n)

end Datum

end Renaming
