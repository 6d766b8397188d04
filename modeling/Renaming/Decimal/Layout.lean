import Renaming.Decimal.Shortest
import Renaming.Text.Basic

/-!
# `Decimal/Layout` — how a double is written

A double that a structured document carries into a comment is written with its shortest digits:
positionally while the exponent of the leading digit lies between −4 and 15, with `.0` after an
integral value, and otherwise with a signed exponent of at least two digits. The infinities and
the value that is no number have names.
-/

set_option autoImplicit false

namespace Renaming

namespace Decimal

/-- Exponents of the leading digit from here on are written positionally. -/
def positionalFrom : Int := -4

/-- Exponents of the leading digit below this one are written positionally. -/
def positionalBelow : Int := 16

/-- A decimal with a point and no exponent. -/
def Scaled.positional (d : Scaled) : Text :=
  let ds := Text.ofNat d.digits
  if 0 ≤ d.exponent then ds ++ List.replicate d.exponent.toNat '0' ++ ['.', '0']
  else
    let places := d.exponent.natAbs
    if places < ds.length then ds.take (ds.length - places) ++ '.' :: ds.drop (ds.length - places)
    else ['0', '.'] ++ List.replicate (places - ds.length) '0' ++ ds

/-- A decimal as its leading digit, the others behind a point, and the exponent. -/
def Scaled.scientific (d : Scaled) : Text :=
  let ds := Text.ofNat d.digits
  let e : Int := d.exponent + (ds.length - 1 : Nat)
  let tail := ds.drop 1
  ds.take 1 ++ (if tail.isEmpty then [] else '.' :: tail) ++ 'e' ::
    (if e < 0 then '-' else '+') :: Text.padded 2 e.natAbs

def Scaled.text (d : Scaled) : Text :=
  let e : Int := d.exponent + ((Text.ofNat d.digits).length - 1 : Nat)
  if positionalFrom ≤ e ∧ e < positionalBelow then d.positional else d.scientific

def ofFloat (x : Float) : Text :=
  if x.isNaN then ['n', 'a', 'n']
  else
    let sign : Text := if x.toBits >>> 63 == 1 then ['-'] else []
    if x.isInf then sign ++ ['i', 'n', 'f']
    else
      let b := Binary.ofBits x.toBits
      if b.mantissa = 0 then sign ++ ['0', '.', '0'] else sign ++ b.shortest.text

example : ofFloat 1e20 = "1e+20".toList := by decide +kernel

example : ofFloat (0.1 + 0.2) = "0.30000000000000004".toList := by decide +kernel

example : ofFloat 5e-324 = "5e-324".toList ∧ ofFloat 1e15 = "1000000000000000.0".toList := by
  decide +kernel

end Decimal

end Renaming
