/-
Rounding to whole numbers, and the remainder of a division.

Both are exact: a whole number near a float is a float, and so is the remainder of
two floats, so neither loses a digit.
-/
import FormulaPlot.Decimal.Binary

namespace FormulaPlot

open Decimal (Binary)

/-- Drops the fraction.  The sign stays, also that of zero. -/
def truncate (x : Float) : Float := if isNegative x then x.ceil else x.floor

/-- The nearest whole number; a half goes to the even neighbour.  The sign stays, also
that of zero. -/
def roundHalfEven (x : Float) : Float :=
  let size := x.abs
  let below := size.floor
  let rest := size - below
  let rounded :=
    if rest < 0.5 then below
    else if rest > 0.5 then below + 1
    else if (below / 2).floor * 2 == below then below
    else below + 1
  if isNegative x then -rounded else rounded

/-- What is left of `a` after taking away a whole multiple of `b`, the quotient being
cut towards zero.  It has the sign of `a`, and is NaN where no quotient exists. -/
def remainder (a b : Float) : Float :=
  if !a.isFinite || b.isNaN || b == 0 then nan
  else if b.isInf then a
  else
    let x := Binary.ofFloat a
    let y := Binary.ofFloat b
    let unit := min x.exponent y.exponent
    let left := x.mantissa * Nat.pow 2 (x.exponent - unit).toNat
    let right := y.mantissa * Nat.pow 2 (y.exponent - unit).toNat
    Decimal.encode (isNegative a) (left % right) unit

/-- The whole number of a float with its fraction cut off, kept within 64 bits.  NaN
gives zero. -/
def toInt64 (x : Float) : Int :=
  let limit : Int := Nat.pow 2 63
  if x.isNaN then 0
  else if x.isInf then (if isNegative x then -limit else limit - 1)
  else
    let ⟨mantissa, exponent, _⟩ := Binary.ofFloat x
    let size : Int := (mantissa * Nat.pow 2 exponent.toNat / Nat.pow 2 (-exponent).toNat : Nat)
    max (-limit) (min (limit - 1) (if isNegative x then -size else size))

end FormulaPlot
