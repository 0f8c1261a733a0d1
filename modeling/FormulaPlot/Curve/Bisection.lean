/-
Where a curve is looked at.

The canvas is halved from edge to edge wherever the curve needs more detail, which
gives a tree of intervals.  An interval is halved if it is wide, if the curve is steep
across it, or if the curve ends somewhere inside it; intervals that are narrow enough
are left alone.

Halving need not come to an end.  On an infinitely wide canvas, or where neighbouring
floats are further apart than the finest spacing, an interval can be its own half.  The
tree is therefore built to a bounded depth, and there is none if the bound is reached.
-/
import FormulaPlot.Viewport

namespace FormulaPlot.Curve

/-- Limits on the spacing of samples, in pixels. -/
structure Spacing (α : Type) where
  /-- Intervals this narrow are never halved. -/
  finest : α
  /-- Intervals wider than this are always halved. -/
  coarsest : α

/-- The spacing for drawing on a screen. -/
def Spacing.screen : Spacing Float := ⟨0.001, 1⟩

/-- An interval of the canvas with the curve's points at both ends. -/
structure Interval (α : Type) where
  left : Point α
  right : Point α

/-- How an interval was divided. -/
inductive Bisection (α : Type) where
  | leaf (interval : Interval α)
  | node (left right : Bisection α)

namespace Bisection

variable {α : Type}

/-- The undivided intervals from left to right, followed by `rest`. -/
def leavesOnto : Bisection α → List (Interval α) → List (Interval α)
  | leaf interval, rest => interval :: rest
  | node left right, rest => left.leavesOnto (right.leavesOnto rest)

/-- The undivided intervals from left to right. -/
def leaves (b : Bisection α) : List (Interval α) := b.leavesOnto []

end Bisection

variable {α : Type} [Scalar α]

/-- The interval has to be halved. -/
def needsSplit (spacing : Spacing α) (i : Interval α) : Bool :=
  let width := i.right.x - i.left.x
  if Scalar.le width spacing.finest then false
  else if Scalar.lt spacing.coarsest width then true
  else match Scalar.isFinite i.left.y, Scalar.isFinite i.right.y with
    | true, true =>
      let slope := Scalar.abs ((i.right.y - i.left.y) / width)
      let allowed :=
        if Scalar.lt slope Scalar.one then spacing.coarsest
        else Scalar.larger (spacing.coarsest / slope) spacing.finest
      Scalar.lt allowed width
    -- The curve ends inside the interval.
    | true, false | false, true => true
    | false, false => false

/-- The canvas point of a curve `y = f(x)` at a canvas `x`. -/
def pointAt (v : Viewport α) (f : α → α) (x : α) : Point α :=
  ⟨x, f ((x - v.origin.x) / v.scale) * -v.scale + v.origin.y⟩

/-- Divides an interval as long as it needs to be halved, at most `depth` times on the way
to any leaf. -/
def bisect (v : Viewport α) (spacing : Spacing α) (f : α → α) :
    (depth : Nat) → Interval α → Option (Bisection α)
  | depth, i =>
    if needsSplit spacing i then
      match depth with
      | 0 => none
      | depth + 1 => do
        let middle := pointAt v f ((i.left.x + i.right.x) * Scalar.half)
        let left ← bisect v spacing f depth ⟨i.left, middle⟩
        let right ← bisect v spacing f depth ⟨middle, i.right⟩
        return .node left right
    else some (.leaf i)

/-- The whole width of the canvas. -/
def canvas (v : Viewport α) (f : α → α) : Interval α :=
  ⟨pointAt v f Scalar.zero, pointAt v f v.width⟩

end FormulaPlot.Curve
