/-
The functions that every formula can call.

An intrinsic never fails.  Outside its domain it gives NaN or an infinity, and so it
does with a wrong number of arguments, which no parsed formula has.
-/
import FormulaPlot.Number.Rounding
import FormulaPlot.Number.Truth

namespace FormulaPlot

/-- A function known to every formula. -/
inductive Intrinsic where
  | sqrt | sqr | ln | log10 | log2 | exp | exp10 | exp2
  | sin | cos | tan | asin | acos | atan | atan2
  | abs | max | min | round | floor | ceil | trunc | clamp | clip | inRange
deriving DecidableEq, Repr

namespace Intrinsic

/-- Every intrinsic, in the order in which they are listed. -/
def all : List Intrinsic :=
  [sqrt, sqr, ln, log10, log2, exp, exp10, exp2, sin, cos, tan, asin, acos, atan, atan2,
   abs, max, min, round, floor, ceil, trunc, clamp, clip, inRange]

/-- The name by which a formula calls it. -/
def name : Intrinsic → String
  | sqrt => "sqrt" | sqr => "sqr" | ln => "ln" | log10 => "log10" | log2 => "log2"
  | exp => "exp" | exp10 => "exp10" | exp2 => "exp2"
  | sin => "sin" | cos => "cos" | tan => "tan"
  | asin => "asin" | acos => "acos" | atan => "atan" | atan2 => "atan2"
  | abs => "abs" | max => "max" | min => "min"
  | round => "round" | floor => "floor" | ceil => "ceil" | trunc => "trunc"
  | clamp => "clamp" | clip => "clip" | inRange => "in_range"

/-- The names of its parameters. -/
def params : Intrinsic → List String
  | atan2 => ["y", "x"]
  | max | min => ["a", "b"]
  | clamp | clip | inRange => ["x", "min", "max"]
  | _ => ["n"]

/-- The number of its parameters. -/
def arity (f : Intrinsic) : Nat := f.params.length

/-- How it is called, for the help text. -/
def usage (f : Intrinsic) : String := f.name ++ "(" ++ ",".intercalate f.params ++ ")"

/-- The intrinsic of a name. -/
def ofName? (name : String) : Option Intrinsic := all.find? fun f => f.name == name

/-- The larger of two numbers; NaN if either is. -/
def larger (a b : Float) : Float :=
  if a.isNaN || b.isNaN then nan else if a < b then b else a

/-- The smaller of two numbers; NaN if either is. -/
def smaller (a b : Float) : Float :=
  if a.isNaN || b.isNaN then nan else if b < a then b else a

/-- The number moved to the nearer end of a range that it lies outside of. -/
def clampTo (x low high : Float) : Float :=
  if x < low then low else if high < x then high else x

/-- The number lies in a range; no range holds NaN. -/
def within (x low high : Float) : Bool := low ≤ x && x ≤ high

/-- The value of the function. -/
def apply : Intrinsic → List Float → Float
  | sqrt, [x] => x.sqrt
  | sqr, [x] => x * x
  | ln, [x] => x.log
  | log10, [x] => x.log10
  | log2, [x] => x.log2
  | exp, [x] => x.exp
  | exp10, [x] => Float.pow 10 x
  | exp2, [x] => x.exp2
  | sin, [x] => x.sin
  | cos, [x] => x.cos
  | tan, [x] => x.tan
  | asin, [x] => x.asin
  | acos, [x] => x.acos
  | atan, [x] => x.atan
  | atan2, [y, x] => Float.atan2 y x
  | abs, [x] => x.abs
  | max, [a, b] => larger a b
  | min, [a, b] => smaller a b
  | round, [x] => roundHalfEven x
  | floor, [x] => x.floor
  | ceil, [x] => x.ceil
  | trunc, [x] => truncate x
  | clamp, [x, low, high] => clampTo x low high
  | clip, [x, low, high] => if within x low high then x else nan
  | inRange, [x, low, high] => ofTruth (within x low high)
  | _, _ => nan

end Intrinsic

end FormulaPlot
