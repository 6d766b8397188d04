/-!
# `Decimal/Shortest` — the fewest digits that identify a double

A finite double stands for all reals that round to it. Its shortest decimal is the one with the
fewest digits in that interval, and of those the nearest to the double; an exact tie goes to the
even digit. The search tests, for one digit, then two, up to seventeen, the two neighbours of the
value on the decimal grid of that many digits, all in exact arithmetic on natural numbers.
-/

set_option autoImplicit false

namespace Renaming

namespace Decimal

/-- A finite non-negative double, `mantissa * 2 ^ exponent`. -/
structure Binary where
  mantissa : Nat
  exponent : Int
  /-- Whether the gap to the double below is half the gap to the one above. -/
  narrowBelow : Bool

/-- The value that the bits of a finite double stand for, its sign left out. -/
def Binary.ofBits (bits : UInt64) : Binary :=
  let e := ((bits >>> 52) &&& 0x7FF).toNat
  let f := (bits &&& 0xFFFFFFFFFFFFF).toNat
  if e = 0 then ⟨f, -1074, false⟩ else ⟨Nat.pow 2 52 + f, (e : Int) - 1075, f == 0 && 1 < e⟩

/-- A decimal, `digits * 10 ^ exponent`. -/
structure Scaled where
  digits : Nat
  exponent : Int
deriving DecidableEq, Repr

def compareScaled (a : Nat) (i : Int) (n : Nat) (j : Int) : Ordering :=
  compare (a * Nat.pow 10 i.toNat * Nat.pow 2 (-j).toNat)
    (n * Nat.pow 2 j.toNat * Nat.pow 10 (-i).toNat)

/-- Whether a decimal rounds to the double: it lies between the halfway points to its neighbours,
which belong to the interval exactly when the mantissa is even. -/
def Binary.readsBack (x : Binary) (d : Scaled) : Bool :=
  let low := if x.narrowBelow then 4 * x.mantissa - 1 else 4 * x.mantissa - 2
  let high := 4 * x.mantissa + 2
  let ends := x.mantissa % 2 == 0
  let below := compareScaled d.digits d.exponent low (x.exponent - 2)
  let above := compareScaled d.digits d.exponent high (x.exponent - 2)
  (below == .gt || (ends && below == .eq)) && (above == .lt || (ends && above == .eq))

/-- The least `k` from `guess` upwards, within `steps` steps, with the value below `10 ^ k`. -/
def Binary.scaleFrom (x : Binary) : Nat → Int → Int
  | 0, k => k
  | steps + 1, k =>
    if compareScaled 1 k x.mantissa x.exponent == .gt then k else x.scaleFrom steps (k + 1)

/-- The least `k` with the value below `10 ^ k`. The binary logarithm gives a lower bound that is
at most one too small. -/
def Binary.scale (x : Binary) : Int :=
  let log2 : Int := x.mantissa.log2 + x.exponent
  x.scaleFrom 4 (Int.fdiv (log2 * 30103) 100000 - 1)

/-- The greatest point of the grid `10 ^ e` that is not above the value. -/
def Binary.gridBelow (x : Binary) (e : Int) : Nat :=
  (x.mantissa * Nat.pow 2 x.exponent.toNat * Nat.pow 10 (-e).toNat) /
    (Nat.pow 10 e.toNat * Nat.pow 2 (-x.exponent).toNat)

/-- Of the two neighbours of the value on the grid `10 ^ e`, the one that reads back; of two the
nearer, and on a tie the even one. -/
def Binary.onGrid? (x : Binary) (e : Int) : Option Scaled :=
  let low : Scaled := ⟨x.gridBelow e, e⟩
  let high : Scaled := ⟨x.gridBelow e + 1, e⟩
  match x.readsBack low, x.readsBack high with
  | true, false => some low
  | false, true => some high
  | false, false => none
  | true, true =>
    match compareScaled (low.digits + high.digits) e (2 * x.mantissa) x.exponent with
    | .gt => some low
    | .lt => some high
    | .eq => if low.digits % 2 = 0 then some low else some high

def Scaled.strip (d : Scaled) : Nat → Scaled
  | 0 => d
  | n + 1 =>
    if d.digits ≠ 0 ∧ d.digits % 10 = 0 then Scaled.strip ⟨d.digits / 10, d.exponent + 1⟩ n else d

/-- The shortest decimal of a double that is not zero. Seventeen digits always identify a double;
the exact value stands behind them so that the answer never rests on that fact. -/
def Binary.shortest (x : Binary) : Scaled :=
  let k := x.scale
  let found := (List.range 17).findSome? fun n => x.onGrid? (k - (n + 1 : Nat))
  let exact : Scaled :=
    if x.exponent < 0 then ⟨x.mantissa * Nat.pow 5 x.exponent.natAbs, x.exponent⟩
    else ⟨x.mantissa * Nat.pow 2 x.exponent.toNat, 0⟩
  (found.getD exact).strip 400

end Decimal

end Renaming
