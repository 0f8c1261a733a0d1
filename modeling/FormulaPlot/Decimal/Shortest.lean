/-
The fewest decimal digits that identify a float.

A float stands for the interval of reals that round to it.  `Binary.shortest`
looks through the grids of one digit, two digits and so on, and takes the first
grid that has a point in the interval.  On a grid only the two neighbours of the
float matter: if any point lies in the interval, so does one of them.  Seventeen
digits are always enough.
-/
import FormulaPlot.Decimal.Binary

namespace FormulaPlot.Decimal

/-- The decimal `digits * 10 ^ exponent`. -/
structure Scientific where
  digits : Nat
  exponent : Int
deriving Repr, DecidableEq

/-- The decimal lies among the reals that round to `x`: strictly between the
halfway points to its neighbours, or on one of them if the mantissa is even. -/
def Binary.readsBack (x : Binary) (d : Scientific) : Bool :=
  let low := if x.narrowBelow then 4 * x.mantissa - 1 else 4 * x.mantissa - 2
  let high := 4 * x.mantissa + 2
  let closed := x.mantissa % 2 == 0
  let atLow := compareScaled d.digits d.exponent low (x.exponent - 2)
  let atHigh := compareScaled d.digits d.exponent high (x.exponent - 2)
  (atLow == .gt || closed && atLow == .eq) && (atHigh == .lt || closed && atHigh == .eq)

/-- The least `k` with `x < 10 ^ k`, for positive `x`.  The binary logarithm gives
it up to one step; exact comparisons settle which. -/
def Binary.scale (x : Binary) : Int :=
  let guess := ((x.mantissa.log2 : Int) + x.exponent) * 30103 / 100000
  match [guess, guess + 1].find? fun k => compareScaled 1 k x.mantissa x.exponent == .gt with
  | some k => k
  | none => guess + 2

/-- The whole part of `x / 10 ^ grid`. -/
def Binary.quotient (x : Binary) (grid : Int) : Nat :=
  x.mantissa * Nat.pow 2 x.exponent.toNat * Nat.pow 10 (-grid).toNat /
    (Nat.pow 2 (-x.exponent).toNat * Nat.pow 10 grid.toNat)

/-- The neighbour of `x` on the grid `10 ^ grid` that reads back to `x`, the closer
one if both do, and the upper one if both are equally close. -/
def Binary.onGrid? (x : Binary) (grid : Int) : Option Scientific :=
  let below := x.quotient grid
  let lower : Scientific := ⟨below, grid⟩
  let upper : Scientific := ⟨below + 1, grid⟩
  match x.readsBack lower, x.readsBack upper with
  | true, true =>
    let middle := compareScaled (2 * below + 1) grid x.mantissa (x.exponent + 1)
    some (if middle == .gt then lower else upper)
  | true, false => some lower
  | false, true => some upper
  | false, false => none

/-- Moves trailing zeros of the digits into the exponent.  `fuel` bounds the number of
digits looked at. -/
def Scientific.strip : (fuel : Nat) → Scientific → Scientific
  | 0, d => d
  | fuel + 1, d =>
    if d.digits ≠ 0 ∧ d.digits % 10 = 0 then strip fuel ⟨d.digits / 10, d.exponent + 1⟩
    else d

/-- The decimal of fewest digits that reads back to a positive `x`, and the closest
of those. -/
def Binary.shortest (x : Binary) : Scientific :=
  let scale := x.scale
  match (List.range' 1 17).findSome? fun (n : Nat) => x.onGrid? (scale - n) with
  | some d => d.strip 20
  | none =>
    ⟨x.mantissa * Nat.pow 2 x.exponent.toNat * Nat.pow 5 (-x.exponent).toNat, min x.exponent 0⟩

end FormulaPlot.Decimal
