/-
The document: a block of functions and a list of formulas.

Replacing the block reads it into a fresh registry and then reads every formula again,
so the trees on screen always belong to the functions on screen.
-/
import FormulaPlot.Document.Formula
import FormulaPlot.Parser.Definition

namespace FormulaPlot

/-- The user's functions and formulas. -/
structure Document where
  functionsText : String
  functions : Registry
  functionErrors : List ParseError
  formulas : List Formula

namespace Document

/-- The document without functions and formulas. -/
def empty : Document := ⟨"", .empty, [], []⟩

/-- Replaces the block of functions and tells whether the tree of some formula
changed. -/
def setFunctionsText (d : Document) (text : String) : Document × Bool :=
  let (functions, errors) := Parser.parseBlock text .empty
  let reparsed := d.formulas.map (·.reparse functions)
  (⟨text, functions, errors, reparsed.map (·.1)⟩, reparsed.any (·.2))

/-- Adds a formula at the end. -/
def addFormula (d : Document) (text : String) : Document :=
  { d with formulas := d.formulas ++ [.ofText text d.functions] }

/-- Replaces the text of a formula and tells whether its tree changed; `none` if there is
no such formula. -/
def setFormula (d : Document) (index : Nat) (text : String) : Document × Option Bool :=
  match d.formulas[index]? with
  | none => (d, none)
  | some f =>
    let (f, changed) := f.setText text d.functions
    ({ d with formulas := d.formulas.set index f }, some changed)

/-- Takes out a formula; `none` if there is no such formula. -/
def removeFormula (d : Document) (index : Nat) : Document × Option Formula :=
  ({ d with formulas := d.formulas.eraseIdx index }, d.formulas[index]?)

/-! ### Errors -/

/-- An error as it is listed to the user. -/
structure ErrorItem where
  heading : String
  message : String
deriving DecidableEq, Repr

/-- The entry for an error in the block of functions. -/
def functionItem (e : ParseError) : ErrorItem where
  heading :=
    if e.function.isEmpty then "Error in user defined function"
    else "Error in function: " ++ e.function
  message := "Error: " ++ e.text

/-- The entry for an error in the formula of a number. -/
def formulaItem (number : Nat) (e : ParseError) : ErrorItem where
  heading := "Error in formula " ++ number.repr
  message := "Error: column " ++ e.column.repr ++ ": " ++ e.message

/-- The errors of the functions, then those of the formulas. -/
def errors (d : Document) : List ErrorItem :=
  d.functionErrors.map functionItem ++
    (d.formulas.zipIdx 1).filterMap fun (f, number) => f.error.map (formulaItem number)

end Document

end FormulaPlot
