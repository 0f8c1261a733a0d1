/-
Finite floats as exact quantities.

A finite float is a natural number times a power of two.  Everything the library
does with digits and remainders is exact arithmetic on that pair, so the two
directions live here once: `Binary.ofFloat` takes a float apart and `encode` puts
a pair with a small enough mantissa together again.

Powers are written as `Nat.pow`, which is one function whether or not algebra is
imported; the sign `^` is not.
-/
import FormulaPlot.Number.Special

namespace FormulaPlot

namespace Decimal

/-- The magnitude of a finite float: `mantissa * 2 ^ exponent`. -/
structure Binary where
  mantissa : Nat
  exponent : Int
  /-- The gap to the float below is half as wide as the gap to the float above. -/
  narrowBelow : Bool

/-- The magnitude of a finite float, read off its bits. -/
def Binary.ofFloat (x : Float) : Binary :=
  let bits := x.toBits.toNat
  let biased : Nat := bits / Nat.pow 2 52 % Nat.pow 2 11
  let fraction : Nat := bits % Nat.pow 2 52
  if biased = 0 then ⟨fraction, -1074, false⟩
  else ⟨Nat.pow 2 52 + fraction, (biased : Int) - 1075, fraction == 0 && biased > 1⟩

/-- The float of a sign and a magnitude `mantissa * 2 ^ exponent` that some float
has, that is with `mantissa < 2 ^ 53`, `-1074 ≤ exponent` and no overflow. -/
def encode (negative : Bool) (mantissa : Nat) (exponent : Int) : Float :=
  let sign := if negative then Nat.pow 2 63 else 0
  let bits :=
    if mantissa = 0 then 0
    else
      let top := (mantissa.log2 : Int) + exponent
      if top < -1022 then mantissa * Nat.pow 2 (exponent + 1074).toNat
      else
        (top + 1022).toNat * Nat.pow 2 52 + mantissa * Nat.pow 2 52 / Nat.pow 2 mantissa.log2
  Float.ofBits (UInt64.ofNat (sign + bits))

/-- Compares `a * 10 ^ i` with `b * 2 ^ j`, exactly. -/
def compareScaled (a : Nat) (i : Int) (b : Nat) (j : Int) : Ordering :=
  compare (a * Nat.pow 10 i.toNat * Nat.pow 2 (-j).toNat)
    (b * Nat.pow 2 j.toNat * Nat.pow 10 (-i).toNat)

end Decimal

end FormulaPlot
