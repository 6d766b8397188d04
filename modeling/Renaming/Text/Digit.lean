import Renaming.Text.Blank

/-!
# `Text/Digit` — decimal digits of every script, and the integers written with them

A decimal digit is any character of the general category Nd. Such characters come in runs of ten,
zero first, so one table of zeros gives both the class and the value. `readInt` reads an integer
as the list of reversed mappings spells it: blanks around it, one sign, digits of any script, and
single underscores between digits.
-/

set_option autoImplicit false

namespace Renaming

namespace Text

/-- The digit zero of every script. The nine code points after it are the digits one to nine. -/
def zeroDigits : List Nat :=
  [0x30, 0x660, 0x6F0, 0x7C0, 0x966, 0x9E6, 0xA66, 0xAE6, 0xB66, 0xBE6, 0xC66, 0xCE6, 0xD66,
   0xDE6, 0xE50, 0xED0, 0xF20, 0x1040, 0x1090, 0x17E0, 0x1810, 0x1946, 0x19D0, 0x1A80, 0x1A90,
   0x1B50, 0x1BB0, 0x1C40, 0x1C50, 0xA620, 0xA8D0, 0xA900, 0xA9D0, 0xA9F0, 0xAA50, 0xABF0, 0xFF10,
   0x104A0, 0x10D30, 0x11066, 0x110F0, 0x11136, 0x111D0, 0x112F0, 0x11450, 0x114D0, 0x11650,
   0x116C0, 0x11730, 0x118E0, 0x11950, 0x11C50, 0x11D50, 0x11DA0, 0x16A60, 0x16AC0, 0x16B50,
   0x1D7CE, 0x1D7D8, 0x1D7E2, 0x1D7EC, 0x1D7F6, 0x1E140, 0x1E2F0, 0x1E950, 0x1FBF0]

/-- The value of a decimal digit of any script. -/
def digitValue? (c : Char) : Option Nat :=
  if c.toNat < 128 then
    if c.isDigit then some (c.toNat - 0x30) else none
  else (zeroDigits.find? fun z => z ≤ c.toNat && c.toNat ≤ z + 9).map fun z => c.toNat - z

/-- A decimal digit of any script. -/
def isDecimalDigit (c : Char) : Bool := (digitValue? c).isSome

/-- Reads the digits of a number after the value `n` read so far. An underscore is allowed when
digits surround it, so it may only stand where `afterDigit` holds and must not end the number. -/
def readDigits (n : Nat) (afterDigit : Bool) : Text → Option Nat
  | [] => if afterDigit then some n else none
  | '_' :: r => if afterDigit then readDigits n false r else none
  | c :: r => (digitValue? c).bind fun d => readDigits (10 * n + d) true r

/-- A number with more digits than this is refused, so that reading and writing one stays cheap. -/
def maxDigits : Nat := 4300

/-- The natural number a text spells with digits of any script. -/
def readNat (t : Text) : Option Nat :=
  if maxDigits < t.countP isDecimalDigit then none else readDigits 0 false t

/-- The blanks that may stand around a number: all but the information separators. -/
def isNumberBlank (c : Char) : Bool := isBlank c && !(0x1C ≤ c.toNat && c.toNat ≤ 0x1F)

/-- The text without the blanks that may stand around a number. -/
def trimNumber (t : Text) : Text := dropTrailing isNumberBlank (dropLeading isNumberBlank t)

/-- The integer a text spells: blanks around it, one sign, digits and single underscores. -/
def readInt (t : Text) : Option Int :=
  match trimNumber t with
  | '+' :: r => (readNat r).map Int.ofNat
  | '-' :: r => (readNat r).map fun n => -(n : Int)
  | r => (readNat r).map Int.ofNat

example : readInt [' ', '-', '1', '_', '0'] = some (-10) := by decide

example : readInt ['1', '_'] = none ∧ readInt ['1', '\x1c'] = none ∧ readInt [] = none := by decide

end Text

end Renaming
