/-
Graduations of the axes.

The labelled graduations of an axis are the multiples of a unit, the origin left out.
The unit is a power of two, so that zooming in by a factor of two halves it, and it is
chosen so that labels keep a readable distance.
-/
import FormulaPlot.Scalar

namespace FormulaPlot.Axis

/-- The least distance between labels, in pixels. -/
def minSpacing : Float := 50

/-- The smallest unit is two to this power. -/
def minExponent : Float := -3

/-- The logical distance between labels: the power of two that puts them at least
`minSpacing` and less than twice that apart, unless it would fall below the smallest
unit. -/
def unitOfScale (scale : Float) : Float :=
  let exponent := -(scale / minSpacing).log2.floor
  Float.pow 2 (Scalar.larger exponent minExponent)

/-- The whole numbers from `first` up to `last`. -/
def between (first last : Int) : List Int :=
  (List.range (last - first + 1).toNat).map fun (i : Nat) => first + i

/-- The multiples of `unit` from `low` up to `high`, without zero. -/
def graduations {α : Type} [Scalar α] (unit low high : α) : List α :=
  if Scalar.lt Scalar.zero unit && Scalar.le low high &&
      Scalar.isFinite low && Scalar.isFinite high then
    let first := Scalar.toInt64 (Scalar.ceil (low / unit))
    let last := Scalar.toInt64 (Scalar.floor (high / unit))
    ((between first last).filter (· ≠ 0)).map fun i => Scalar.ofInt i * unit
  else []

end FormulaPlot.Axis
