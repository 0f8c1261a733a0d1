/-
The numbers that are no real numbers, and the sign of a number.
-/

namespace FormulaPlot

/-- The value of an operation that has no value. -/
def nan : Float := 0 / 0

/-- Larger than every real number. -/
def infinity : Float := 1 / 0

/-- The sign bit is set, so minus zero counts as negative.  There is a single NaN and
it counts as positive. -/
def isNegative (x : Float) : Bool := x.toBits >>> 63 == 1 && !x.isNaN

/-- NaN is written in one way; other numbers stay as they are. -/
def canonical (x : Float) : Float := if x.isNaN then nan else x

end FormulaPlot
