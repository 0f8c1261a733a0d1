/-
The part of the plane that is shown.

Canvas coordinates count pixels from the upper left corner, with `y` growing
downwards.  Logical coordinates are those of the formulas, with `y` growing upwards, so
both directions of the map flip that axis.
-/
import FormulaPlot.Scalar
import FormulaPlot.Decimal.Layout

namespace FormulaPlot

/-- A point of the plane. -/
structure Point (α : Type) where
  x : α
  y : α

/-- A canvas and where the plane lies on it. -/
structure Viewport (α : Type) where
  /-- Pixels for one logical unit. -/
  scale : α
  /-- The canvas position of the logical origin. -/
  origin : Point α
  width : α
  height : α

namespace Viewport

variable {α : Type} [Scalar α]

/-- The canvas of a size with the logical origin at its center. -/
def centered (scale width height : α) : Viewport α :=
  ⟨scale, ⟨width * Scalar.half, height * Scalar.half⟩, width, height⟩

/-- The logical point at a canvas position. -/
def toLogical (v : Viewport α) (p : Point α) : Point α :=
  ⟨(p.x - v.origin.x) / v.scale, (v.origin.y - p.y) / v.scale⟩

/-- The canvas position of a logical point. -/
def toCanvas (v : Viewport α) (p : Point α) : Point α :=
  ⟨p.x * v.scale + v.origin.x, p.y * -v.scale + v.origin.y⟩

/-- The logical `x` at the left and at the right edge of the canvas. -/
def xRange (v : Viewport α) : α × α :=
  ((v.toLogical ⟨Scalar.zero, Scalar.zero⟩).x, (v.toLogical ⟨v.width, Scalar.zero⟩).x)

/-- The logical `y` at the bottom and at the top edge of the canvas. -/
def yRange (v : Viewport α) : α × α :=
  ((v.toLogical ⟨Scalar.zero, v.height⟩).y, (v.toLogical ⟨Scalar.zero, Scalar.zero⟩).y)

/-- The viewport as shown to the user. -/
def text (v : Viewport Float) : String :=
  let pair (a b : Float) := "(" ++ Decimal.literal a ++ ", " ++ Decimal.literal b ++ ")"
  "Viewport \x7b scale: " ++ Decimal.literal v.scale ++
    ", origin: " ++ pair v.origin.x v.origin.y ++
    ", size: " ++ pair v.width v.height ++ " \x7d"

end Viewport

end FormulaPlot
