import Renaming.Yaml.Tag
import Renaming.Text.Digit

/-!
# `Yaml/ScalarValue` — the values that scalars stand for

A scalar has been given its tag by its spelling or by hand, and only now is its text read. The
two need not agree: a tag written by hand accepts some texts that no plain scalar of that kind is
spelt like, and a spelling may name a value that does not exist, such as the thirteenth month.
Either is a fault of the value, not of the document's form.
-/

set_option autoImplicit false

namespace Renaming

namespace Yaml

namespace ScalarValue

/-- The text without underscores, which only group digits. -/
def ungrouped (t : Text) : Text := t.filter (· != '_')

/-- A number's sign, true for minus, and the text behind it. -/
def signed : Text → Bool × Text
  | '-' :: r => (true, r)
  | '+' :: r => (false, r)
  | r => (false, r)

/-! ## Truth values -/

/-- The truth value that a word in any case names. -/
def bool (t : Text) : Except Fault Atom :=
  let w := String.ofList (Text.lowerAscii t)
  if ["yes", "true", "on"].contains w then .ok (.bool true)
  else if ["no", "false", "off"].contains w then .ok (.bool false)
  else .error (.value .missingKey)

/-! ## Whole numbers -/

/-- The value of a digit in a base of up to sixteen, decimal digits of any script included. -/
def radixDigit? (radix : Nat) (c : Char) : Option Nat :=
  let d := if !c.isDigit && isHexDigit c then some (hexValue c) else Text.digitValue? c
  d.bind fun d => if d < radix then some d else none

/-- The number that digits in a base spell, after the value `n` read so far. -/
def radixDigits (radix n : Nat) : Text → Option Nat
  | [] => some n
  | c :: r => (radixDigit? radix c).bind fun d => radixDigits radix (radix * n + d) r

/-- An integer in a base, with blanks around it, a sign, and the mark of the base in front or
not. -/
def radixInt? (radix : Nat) (mark : Char) (t : Text) : Option Int :=
  let (negative, t) := signed (Text.trimNumber t)
  let digits :=
    match t with
    | '0' :: m :: r => if m.toLower == mark then r else t
    | _ => t
  if digits.isEmpty then none
  else (radixDigits radix 0 digits).map fun n => if negative then -(n : Int) else n

/-- The integer that digits behind an optional sign spell. A zero in front means base eight. -/
def unsignedInt? (t : Text) : Option Int :=
  match t with
  | ['0'] => some 0
  | '0' :: 'b' :: r => radixInt? 2 'b' r
  | '0' :: 'x' :: r => radixInt? 16 'x' r
  | '0' :: _ => radixInt? 8 'o' t
  | _ =>
    if ':' ∈ t then
      (Text.splitOn ':' t).foldlM (fun n part => (Text.readInt part).map (60 * n + ·)) 0
    else Text.readInt t

def int (t : Text) : Except Fault Atom :=
  match ungrouped t with
  | [] => .error (.value .nothingThere)
  | c :: r =>
    let (negative, t) := signed (c :: r)
    if t.isEmpty then .error (.value .nothingThere)
    else
      match unsignedInt? t with
      | some n => .ok (.int (if negative then -n else n))
      | none => .error (.value .noSuchValue)

/-! ## Floating-point numbers -/

/-- The number that decimal digits of any script spell, none of them counting as zero. -/
def digitsValue (t : Text) : Nat :=
  t.foldl (fun n c => 10 * n + (Text.digitValue? c).getD 0) 0

/-- The double nearest to `m · 10 ^ e`. Exponents far outside the range of doubles are settled
without computing the power. -/
def nearest (m : Nat) (e : Int) : Float :=
  let magnitude := (Text.ofNat m).length + e
  if m = 0 || magnitude < -400 then 0
  else if 400 < magnitude then 1.0 / 0.0
  else Float.ofScientific m (e < 0) e.natAbs

/-- The exponent behind a mantissa: nothing for zero, or the letter, a sign and digits. -/
def exponent? : Text → Option Int
  | [] => some 0
  | 'e' :: r =>
    let (negative, ds) := signed r
    if !ds.isEmpty && ds.all Text.isDecimalDigit then
      some (if negative then -(digitsValue ds : Int) else digitsValue ds)
    else none
  | _ => none

/-- A number in decimal notation. -/
def decimal? (t : Text) : Option Float :=
  let (whole, r) := t.span Text.isDecimalDigit
  let (fraction, r) :=
    match r with
    | '.' :: r => r.span Text.isDecimalDigit
    | r => ([], r)
  if whole.isEmpty && fraction.isEmpty then none
  else (exponent? r).map fun e => nearest (digitsValue (whole ++ fraction)) (e - fraction.length)

/-- A number in decimal notation or a word for one of the special values, with blanks around it
and a sign. -/
def plainFloat? (t : Text) : Option Float :=
  let (negative, u) := signed (Text.trimNumber t)
  let magnitude :=
    if u = "inf".toList || u = "infinity".toList then some (1.0 / 0.0)
    else if u = "nan".toList then some (0.0 / 0.0)
    else decimal? u
  magnitude.map fun x => if negative then -x else x

/-- Adds up the parts of a number in base sixty, the last part first. -/
def sexagesimal (place : Nat) (sum : Float) : List Float → Except Fault Float
  | [] => .ok sum
  | x :: xs =>
    if Nat.pow 60 place < Nat.pow 2 1024 then
      sexagesimal (place + 1) (sum + x * Float.ofNat (Nat.pow 60 place)) xs
    else .error (.value .outOfRange)

/-- The double behind an optional sign. -/
def unsignedFloat (t : Text) : Except Fault Float :=
  let orFault (x : Option Float) : Except Fault Float :=
    match x with
    | some x => .ok x
    | none => .error (.value .noSuchValue)
  if t = ".inf".toList then .ok (1.0 / 0.0)
  else if ':' ∈ t then do
    let parts ← (Text.splitOn ':' t).mapM fun p => orFault (plainFloat? p)
    sexagesimal 0 0 parts.reverse
  else orFault (plainFloat? t)

/-- The double that a text names, for the scalar with this number in this document. The special
value that is no number is the same in all of them. -/
def float (document scalar : Nat) (t : Text) : Except Fault Atom :=
  match Text.lowerAscii (ungrouped t) with
  | [] => .error (.value .nothingThere)
  | c :: r => do
    let (negative, u) := signed (c :: r)
    if u = ".nan".toList then return .nan .spelt
    else
      let x ← unsignedFloat u
      return .ofFloat (.computed document scalar) (if negative then -x else x)

/-! ## Dates -/

/-- The first six places of a second, filled up with zeros. -/
def microseconds (places : Text) : Nat := digitsValue ((places ++ List.replicate 6 '0').take 6)

def offsetMinutes : Option (Char × Text × Text) → Int
  | none => 0
  | some (sign, hours, minutes) =>
    let n : Int := 60 * digitsValue hours + digitsValue minutes
    if sign = '-' then -n else n

/-- The day or moment that a text names. A text of another shape has no parts to read. -/
def timestamp (t : Text) : Except Fault Atom :=
  match Tag.timestamp? (Tag.dropFinalBreak t) with
  | none => .error (.value .notRecord)
  | some s =>
    let date : Date := ⟨digitsValue s.year, digitsValue s.month, digitsValue s.day⟩
    match s.time with
    | none => if date.isValid then .ok (.date date) else .error (.value .noSuchValue)
    | some (hour, minute, second, places, offset) =>
      let m : Moment := ⟨date, digitsValue hour, digitsValue minute, digitsValue second,
        microseconds places, offset.map offsetMinutes⟩
      if m.isValid then .ok (.moment m) else .error (.value .noSuchValue)

/-! ## Bytes -/

/-- The six bits of a character of the base-64 alphabet. -/
def sixBits? (c : Char) : Option Nat :=
  if 'A' ≤ c && c ≤ 'Z' then some (c.toNat - 65)
  else if 'a' ≤ c && c ≤ 'z' then some (c.toNat - 71)
  else if c.isDigit then some (c.toNat + 4)
  else if c = '+' then some 62
  else if c = '/' then some 63
  else none

/-- The bytes behind `count` characters of a group of four, whose bits not yet used are `left`,
after `pads` equals signs. Characters outside the alphabet are passed over, padding that fills a
group ends the text, and a group must not be left open. -/
def base64 (count left pads : Nat) : Text → Option (List UInt8)
  | [] => if count = 0 then some [] else none
  | c :: r =>
    if c = '=' then
      if 2 ≤ count then
        if 4 ≤ count + pads + 1 then some [] else base64 count left (pads + 1) r
      else base64 count left pads r
    else
      match sixBits? c with
      | none => base64 count left pads r
      | some b =>
        match count with
        | 0 => base64 1 b 0 r
        | 1 => (base64 2 (b % 16) 0 r).map (UInt8.ofNat (left * 4 + b / 16) :: ·)
        | 2 => (base64 3 (b % 4) 0 r).map (UInt8.ofNat (left * 16 + b / 4) :: ·)
        | _ => (base64 0 0 0 r).map (UInt8.ofNat (left * 64 + b) :: ·)

/-- The bytes that a text spells in base 64. -/
def binary (t : Text) : Except Fault Atom :=
  if t.any fun c => 0x80 ≤ c.toNat then .error malformed
  else
    match base64 0 0 0 t with
    | some bs => .ok (.bytes bs)
    | none => .error malformed

end ScalarValue

end Yaml

end Renaming
