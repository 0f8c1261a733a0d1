/-
The arithmetic that geometry needs.

The viewport, the sampler and the graduations of the axes are written over any type of
numbers with these operations.  The program runs them on floats; over exact numbers the
same definitions say what they are meant to compute.
-/
import FormulaPlot.Number.Rounding

namespace FormulaPlot

/-- Numbers to calculate coordinates with.  Some of them may be no finite values. -/
class Scalar (α : Type) extends Add α, Sub α, Mul α, Div α, Neg α where
  zero : α
  one : α
  half : α
  lt : α → α → Bool
  le : α → α → Bool
  isFinite : α → Bool
  abs : α → α
  /-- The larger of two numbers, or the only one that is a number. -/
  larger : α → α → α
  floor : α → α
  ceil : α → α
  /-- The whole number without a fraction, kept within 64 bits. -/
  toInt64 : α → Int
  ofInt : Int → α

namespace Scalar

/-- The larger of two floats, or the only one that is not NaN. -/
def largerFloat (a b : Float) : Float :=
  if a.isNaN then b else if b.isNaN then a else if a < b then b else a

instance : Scalar Float where
  zero := 0
  one := 1
  half := 0.5
  lt a b := a < b
  le a b := a ≤ b
  isFinite := Float.isFinite
  abs := Float.abs
  larger := largerFloat
  floor := Float.floor
  ceil := Float.ceil
  toInt64 := FormulaPlot.toInt64
  ofInt := Float.ofInt

end Scalar

end FormulaPlot
