/-
The named constants of the formula language.
-/
import FormulaPlot.Number.Truth

namespace FormulaPlot.Constant

/-- Every named constant with its value, in the order in which they are listed. -/
def all : List (String × Float) :=
  [("e", 2.718281828459045), ("pi", 3.141592653589793), ("NaN", nan), ("inf", infinity),
   ("True", ofTruth true), ("False", ofTruth false)]

/-- The value of a named constant. -/
def value? (name : String) : Option Float := all.lookup name

end FormulaPlot.Constant
