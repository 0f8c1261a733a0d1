/-
Numbers as truth values.

A condition is a number like any other.  True is one and false is NaN, so that a
curve is simply absent wherever its condition fails.
-/
import FormulaPlot.Number.Special

namespace FormulaPlot

/-- The number that stands for a truth value. -/
def ofTruth (b : Bool) : Float := if b then 1 else nan

/-- A finite number other than zero counts as true.  Zero, NaN and the infinities
count as false. -/
def isTrue (x : Float) : Bool := x.isFinite && x != 0

end FormulaPlot
