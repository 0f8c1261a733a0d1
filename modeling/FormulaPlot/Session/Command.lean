/-
The commands of a session.
-/

namespace FormulaPlot

/-- What the user can ask for. -/
inductive Command where
  | help | quit | add | set | list | funcs | window | tree | tokens | errors | plot
deriving DecidableEq, Repr

namespace Command

/-- Every command, in the order in which the help lists them. -/
def all : List Command := [help, quit, add, set, list, funcs, window, plot, errors, tree, tokens]

/-- The word that the user types. -/
def name : Command → String
  | help => "help" | quit => "quit" | add => "add" | set => "set" | list => "list"
  | funcs => "funcs" | window => "window" | tree => "tree" | tokens => "tokens"
  | errors => "errors" | plot => "plot"

/-- What the help says about the command. -/
def summary : Command → String
  | help => "display help for each command, function and constant"
  | quit => "quit the shell"
  | add => "add a formula to plot"
  | set => "edit a formula (leave blank to remove it)"
  | list => "list formulas and user defined functions"
  | funcs => "replace the user defined functions, one per line"
  | window => "set viewport parameters"
  | tree => "print the simplified formulas (for debugging)"
  | tokens => "print the tokens of some text (for debugging)"
  | errors => "list errors in formulas and functions"
  | plot => "plot every formula without errors"

/-- The command of a word. -/
def ofName? (word : String) : Option Command := all.find? fun c => c.name == word

end Command

end FormulaPlot
