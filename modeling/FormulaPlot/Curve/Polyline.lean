/-
The lines that a curve is drawn with.

A pen goes over the intervals from left to right.  Where both ends are finite and one
of them is on the canvas it draws the interval; anywhere else it is lifted.  What is
drawn between two lifts is a polyline, unless it is a single point.
-/
import FormulaPlot.Curve.Bisection

namespace FormulaPlot.Curve

/-- Connected points in the order of increasing `x`. -/
abbrev Polyline (α : Type) := List (Point α)

/-- Where a point of a curve is. -/
inductive Visibility where
  | visible
  /-- Above or below the canvas. -/
  | offScreen
  | absent
deriving DecidableEq, Repr

variable {α : Type} [Scalar α]

/-- Where a point is, on a canvas of some height. -/
def visibility (height : α) (p : Point α) : Visibility :=
  if !Scalar.isFinite p.y then .absent
  else if Scalar.le Scalar.zero p.y && Scalar.le p.y height then .visible
  else .offScreen

/-- What has been drawn: the line under the pen and the finished lines, each with the
latest first. -/
structure Pen (α : Type) where
  current : List (Point α)
  finished : List (Polyline α)

namespace Pen

/-- The pen before anything is drawn. -/
def start : Pen α := ⟨[], []⟩

/-- Draws on to a point, unless the pen is there already. -/
def drawTo (pen : Pen α) (p : Point α) : Pen α :=
  match pen.current with
  | [] => { pen with current := [p] }
  | last :: _ => if Scalar.le p.x last.x then pen else { pen with current := p :: pen.current }

/-- Lifts the pen.  A single point is no line. -/
def lift (pen : Pen α) : Pen α :=
  match pen.current with
  | [] | [_] => { pen with current := [] }
  | line => ⟨[], line.reverse :: pen.finished⟩

/-- Goes over an interval. -/
def trace (height : α) (pen : Pen α) (i : Interval α) : Pen α :=
  match visibility height i.left, visibility height i.right with
  | .visible, .visible | .visible, .offScreen | .offScreen, .visible =>
    (pen.drawTo i.left).drawTo i.right
  | .visible, .absent => (pen.drawTo i.left).lift
  | .absent, .visible => pen.lift.drawTo i.right
  | _, _ => pen.lift

end Pen

/-- The lines drawn over intervals that follow one another. -/
def draw (height : α) (intervals : List (Interval α)) : List (Polyline α) :=
  (intervals.foldl (Pen.trace height) Pen.start).lift.finished.reverse

/-- The depth to which the canvas is divided.  Between the largest and the smallest float
lie fewer halvings than this, so an interval at this depth would be halved for ever. -/
def maxDepth : Nat := 4096

/-- The polylines of the curve `y = f(x)` on a canvas; none if the curve cannot be divided
finely enough. -/
def sampleWithin (depth : Nat) (v : Viewport α) (spacing : Spacing α) (f : α → α) :
    Option (List (Polyline α)) :=
  if Scalar.lt Scalar.zero v.width then
    (bisect v spacing f depth (canvas v f)).map fun b => draw v.height b.leaves
  else some []

/-- The polylines of the curve `y = f(x)` on a canvas. -/
def sample (v : Viewport α) (spacing : Spacing α) (f : α → α) : Option (List (Polyline α)) :=
  sampleWithin maxDepth v spacing f

end FormulaPlot.Curve
