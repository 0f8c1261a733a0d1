/-
The state of a session.

A session is a conversation: the program prints a prompt, the user answers with a line.
Most commands ask further questions, so besides the document and the viewport the state
says which question the next line answers.  The prompt follows from the state.
-/
import FormulaPlot.Document.Basic
import FormulaPlot.Viewport

namespace FormulaPlot

/-- A number of the viewport that the user can set. -/
inductive Dimension where
  | scale | originX | originY | width | height
deriving DecidableEq, Repr

namespace Dimension

/-- The name in the prompt. -/
def name : Dimension → String
  | scale => "scale" | originX => "origin x" | originY => "origin y" | width => "width"
  | height => "height"

/-- The value in a viewport. -/
def get : Dimension → Viewport Float → Float
  | scale, v => v.scale
  | originX, v => v.origin.x
  | originY, v => v.origin.y
  | width, v => v.width
  | height, v => v.height

/-- The viewport with another value. -/
def set : Dimension → Viewport Float → Float → Viewport Float
  | scale, v, x => { v with scale := x }
  | originX, v, x => { v with origin := ⟨x, v.origin.y⟩ }
  | originY, v, x => { v with origin := ⟨v.origin.x, x⟩ }
  | width, v, x => { v with width := x }
  | height, v, x => { v with height := x }

/-- The one that is asked for next. -/
def next? : Dimension → Option Dimension
  | scale => some originX
  | originX => some originY
  | originY => some width
  | width => some height
  | height => none

end Dimension

/-- The question that the next line answers. -/
inductive Mode where
  /-- What to do. -/
  | command
  /-- The text of a new formula. -/
  | adding
  /-- The number of the formula to edit. -/
  | choosing
  /-- The new text of the formula at a place. -/
  | editing (index : Nat)
  /-- A definition, or nothing to finish; the lines entered so far come with the latest
  first. -/
  | defining (entered : List String)
  /-- A number of the viewport; those entered so far are in the draft. -/
  | resizing (dimension : Dimension) (draft : Viewport Float)
  /-- A text to list the tokens of. -/
  | tokens

/-- The state of a session. -/
structure Session where
  document : Document
  viewport : Viewport Float
  mode : Mode

/-- What has to hold of a viewport: a positive scale and no negative size. -/
inductive ViewportFault where
  | scale
  | size

/-- The first fault of a viewport. -/
def ViewportFault.of? (v : Viewport Float) : Option ViewportFault :=
  if !(0 < v.scale) then some .scale
  else if !(0 ≤ v.width && 0 ≤ v.height) then some .size
  else none

namespace Session

/-- What is printed before the user's next line. -/
def prompt (s : Session) : String :=
  match s.mode with
  | .command =>
    s.document.formulas.length.repr ++ " formula(s), " ++ s.document.functions.size.repr ++
      " user defined function(s)\n> "
  | .adding | .editing _ => "y = "
  | .choosing => "?formula (1-" ++ s.document.formulas.length.repr ++ ") = "
  | .defining _ => "| "
  | .resizing d draft => "?" ++ d.name ++ " (is " ++ Decimal.plain (d.get draft) ++ ") = "
  | .tokens => "text = "

end Session

end FormulaPlot
