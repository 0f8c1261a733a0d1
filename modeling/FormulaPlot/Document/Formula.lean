/-
A formula of a document: its text and what came of reading it.

Reading again keeps the stored tree if the new one is equivalent to it, and reports
whether the tree changed.  A curve has to be drawn again only if it did.
-/
import FormulaPlot.Parser.Formula
import FormulaPlot.Expr.Equivalence
import FormulaPlot.Text.Blank

namespace FormulaPlot

/-- The name of the variable of a plotted formula. -/
def plotVariable : String := "x"

/-- The names a plotted formula is read over. -/
def plotVariables : List String := [plotVariable]

/-- A text with its tree or its error.  A blank text has neither. -/
structure Formula where
  text : String
  expr : Option Expr
  error : Option ParseError

namespace Formula

/-- The formula without text. -/
def blank : Formula := ⟨"", none, none⟩

/-- Reads a text; a blank one has no tree. -/
def readText (text : String) (functions : Registry) : Except ParseError (Option Expr) :=
  if Text.isAllBlank text then .ok none
  else (Parser.parse text functions plotVariables).map some

/-- The trees are not equivalent, or only one is there. -/
def differs : Option Expr → Option Expr → Bool
  | some a, some b => !a.isEquivalent b
  | none, none => false
  | _, _ => true

/-- Reads the text again and tells whether the tree changed. -/
def reparse (f : Formula) (functions : Registry) : Formula × Bool :=
  let (expr, error) := match readText f.text functions with
    | .ok expr => (expr, none)
    | .error e => (none, some e)
  let changed := differs f.expr expr
  ({ f with error := error, expr := if changed then expr else f.expr }, changed)

/-- A formula read for the first time. -/
def ofText (text : String) (functions : Registry) : Formula :=
  (reparse ⟨text, none, none⟩ functions).1

/-- Replaces the text and tells whether the tree changed.  The same text is not read
again. -/
def setText (f : Formula) (text : String) (functions : Registry) : Formula × Bool :=
  if text = f.text then (f, false) else reparse { f with text := text } functions

end Formula

end FormulaPlot
