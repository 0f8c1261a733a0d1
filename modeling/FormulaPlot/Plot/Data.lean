/-
The data of a plot.

Every formula with a tree that shows on the canvas gives one data set, in the order of
the formulas.  In the data file the points of a polyline stand on successive lines, a
blank line separates polylines, and two separate data sets.
-/
import FormulaPlot.Curve.Polyline
import FormulaPlot.Document.Basic

namespace FormulaPlot.Plot

/-- A formula with the polylines of its curve, in canvas coordinates. -/
structure DataSet where
  /-- The number of the formula in its document, from one. -/
  number : Nat
  text : String
  lines : List (Curve.Polyline Float)

/-- The number, text and tree of every formula that has a tree. -/
def drawable (d : Document) : List (Nat × String × Expr) :=
  (d.formulas.zipIdx 1).filterMap fun (f, number) => f.expr.map fun e => (number, f.text, e)

/-- The curve of a formula on a canvas; none if it cannot be divided finely enough. -/
def dataSet? (v : Viewport Float) (f : Nat × String × Expr) : Option DataSet :=
  (Curve.sample v .screen fun x => f.2.2.eval [x]).map fun lines => ⟨f.1, f.2.1, lines⟩

/-- Some of the curve is on the canvas. -/
def DataSet.isVisible (s : DataSet) : Bool := !s.lines.isEmpty

/-- A point on a line of the data file, in logical coordinates. -/
def pointLine (v : Viewport Float) (p : Point Float) : String :=
  let q := v.toLogical p
  Decimal.plain q.x ++ " " ++ Decimal.plain q.y ++ "\n"

/-- The points of a polyline, one on each line. -/
def polylineText (v : Viewport Float) (line : Curve.Polyline Float) : String :=
  String.join (line.map (pointLine v))

/-- The polylines of a data set. -/
def DataSet.dataText (v : Viewport Float) (s : DataSet) : String :=
  "\n".intercalate (s.lines.map (polylineText v))

/-- The data file. -/
def dataText (v : Viewport Float) (sets : List DataSet) : String :=
  "\n\n".intercalate (sets.map (·.dataText v))

end FormulaPlot.Plot
