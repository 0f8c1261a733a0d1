/-
The script of a plot.

The script tells the plotting program how large the picture is, which part of the plane
it shows, where the graduations stand, and which data set to draw under which title.
-/
import FormulaPlot.Plot.Data
import FormulaPlot.Axis

namespace FormulaPlot.Plot

/-- The files of a plot. -/
structure FileNames where
  data : String
  script : String
  picture : String

/-- The names of files written at a moment in time. -/
def FileNames.at (stamp : String) : FileNames :=
  let base := "graph_eq_output-" ++ stamp
  ⟨base ++ ".data", base ++ ".gnuplot", base ++ ".svg"⟩

/-- A character inside a quoted title: a backslash goes before a backslash and before a
quotation mark. -/
def escapeChar : Char → List Char
  | '\\' => ['\\', '\\']
  | '"' => ['\\', '"']
  | c => [c]

/-- A text inside a quoted title. -/
def escape (s : String) : String := String.ofList (s.toList.flatMap escapeChar)

/-- The statement that sets the graduations of an axis. -/
def ticsLine (axis : String) (tics : List Float) : String :=
  if tics.isEmpty then "unset " ++ axis ++ "tics"
  else "set " ++ axis ++ "tics axis nomirror (" ++ ", ".intercalate (tics.map Decimal.plain) ++ ")"

/-- The statement that sets the range of an axis. -/
def rangeLine (axis : String) (range : Float × Float) : String :=
  "set " ++ axis ++ "range[" ++ Decimal.plain range.1 ++ ":" ++ Decimal.plain range.2 ++ "]"

/-- The clause that draws the data set at a place of the data file. -/
def clause (data : String) (index : Nat) (s : DataSet) : String :=
  "  '" ++ data ++ "' index " ++ index.repr ++ " with lines lw 2 title \"" ++
    s.number.repr ++ ": y = " ++ escape s.text ++ "\" noenhanced"

/-- The clauses of a plot, each but the last continued on the next line. -/
def clauses (data : String) (sets : List DataSet) : String :=
  ", \\\n".intercalate (sets.zipIdx.map fun (s, index) => clause data index s)

/-- The script. -/
def scriptText (names : FileNames) (v : Viewport Float) (sets : List DataSet) : String :=
  let unit := Axis.unitOfScale v.scale
  let tics (range : Float × Float) := Axis.graduations unit range.1 range.2
  let size (x : Float) := Decimal.whole (Scalar.larger x 1)
  let statements := [
    "reset",
    "set term push",
    "set terminal svg size " ++ size v.width ++ "," ++ size v.height ++ " enhanced",
    "set output '" ++ names.picture ++ "'",
    rangeLine "x" v.xRange,
    rangeLine "y" v.yRange,
    "set size ratio -1",
    ticsLine "x" (tics v.xRange),
    ticsLine "y" (tics v.yRange),
    "set zeroaxis lt -1",
    "set border 0",
    "set title \"" ++ names.data ++ "\"",
    "set title noenhanced",
    "set xlabel \"" ++ plotVariable ++ "\"",
    "set key out vertical top right",
    "set key title \"Key\"",
    "plot \\",
    clauses names.data sets,
    "set term pop",
    "replot"]
  String.join (statements.map (· ++ "\n"))

end FormulaPlot.Plot
