import Renaming.Text.Printable

/-!
# `Text/Quoted` — text between quotes, as messages show it

A message shows a piece of its input between quotes: single quotes, unless the text holds a single
quote and no double one. The quote in use and the backslash are escaped, the three common control
characters have letters, and every other character that is not printable is written by its code
point with two, four or eight hexadecimal digits.
-/

set_option autoImplicit false

namespace Renaming

namespace Text

/-- The quote put around a text: double only when that saves escaping a single one. -/
def quoteMark (t : Text) : Char := if '\'' ∈ t ∧ '"' ∉ t then '"' else '\''

/-- The lower-case hexadecimal digits of a number, with zeros in front up to `width`. -/
def hexadecimal (width n : Nat) : Text :=
  let ds := Nat.toDigits 16 n
  List.replicate (width - ds.length) '0' ++ ds

/-- One character as it stands between quotes `q`. -/
def escapeChar (q c : Char) : Text :=
  if c = q ∨ c = '\\' then ['\\', c]
  else if c = '\n' then ['\\', 'n']
  else if c = '\r' then ['\\', 'r']
  else if c = '\t' then ['\\', 't']
  else if isPrintable c then [c]
  else if c.toNat < 0x100 then '\\' :: 'x' :: hexadecimal 2 c.toNat
  else if c.toNat < 0x10000 then '\\' :: 'u' :: hexadecimal 4 c.toNat
  else '\\' :: 'U' :: hexadecimal 8 c.toNat

def quoted (t : Text) : Text :=
  let q := quoteMark t
  q :: t.flatMap (escapeChar q) ++ [q]

example : quoted "a'b\u00a0".toList = "\"a'b\\xa0\"".toList := by decide +kernel

example : quoted "'\"\n".toList = "'\\'\"\\n'".toList := by decide +kernel

end Text

end Renaming
