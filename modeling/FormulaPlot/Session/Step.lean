/-
One step of a session: the user's line, and what the program says and does.

Each answer either leads to the next question of the same command or ends the command.
A command that has ended is followed by a blank line and the main prompt.
-/
import FormulaPlot.Expr.Printer
import FormulaPlot.Plot.Script
import FormulaPlot.Report
import FormulaPlot.Session.Basic
import FormulaPlot.Session.Command

namespace FormulaPlot

/-- A failure that ends a session: what failed, and the reasons behind it. -/
structure Failure where
  what : String
  reasons : List String

/-- The failure as shown to the user. -/
def Failure.text (f : Failure) : String :=
  let reasons :=
    if f.reasons.isEmpty then ""
    else "\ncontext:\n" ++ String.join (f.reasons.map fun r => "  " ++ r ++ "\n")
  "unexpected error: " ++ f.what ++ "\n" ++ reasons

/-- The ways in which a session ends. -/
inductive Ending where
  | quit
  | failed (failure : Failure)

/-- What the session finds outside. -/
structure Surroundings where
  /-- The moment of a plot, as it goes into file names. -/
  stamp : String
  /-- The plotting program can be started. -/
  canPlot : Bool

/-- What a line of the user leads to. -/
structure Reply where
  /-- What is printed. -/
  text : String
  /-- The files that are written, with their contents. -/
  files : List (String × String)
  /-- The end of the session, if this is it. -/
  ending : Option Ending

namespace Reply

/-- Some text and nothing else. -/
def say (text : String) : Reply := ⟨text, [], none⟩

end Reply

namespace Session

open Report (line)

/-! ### Errors in formulas and functions -/

/-- What is reported about the formula at a place. -/
def formulaReport (d : Document) (index : Nat) : String :=
  match d.formulas[index]? with
  | some ⟨text, _, some e⟩ => "\n" ++ Report.explain text e d.functions
  | _ => ""

/-- What is reported about the block of functions. -/
def functionsReport (d : Document) : String :=
  String.join (d.functionErrors.map fun e =>
    let text := (Text.lines d.functionsText)[e.line - 1]?.getD ""
    "\n" ++ line ("line " ++ e.line.repr ++ ":") ++ Report.explain text e d.functions)

/-- The text of an answer that is no number, marked, with the reason. -/
def refusal (text : String) (r : Decimal.Refusal) : String :=
  "\n" ++ Report.underline text 1 text.length ++ line ("parse error: " ++ r.message)

/-- What is said where a formula is needed and there is none. -/
def noFormula : String := line "error: no formula is defined"

/-! ### Ending a command, or asking on -/

/-- Ends a command with some text. -/
def finish (s : Session) (text : String) : Session × Reply :=
  ({ s with mode := .command }, .say (text ++ "\n"))

/-- Says something and asks the question of another mode. -/
def askOn (s : Session) (mode : Mode) (text : String) : Session × Reply :=
  ({ s with mode := mode }, .say text)

/-! ### Commands that only show something -/

/-- The commands, functions and constants. -/
def helpText : String :=
  String.join (Command.all.map fun c => line (c.name ++ ": " ++ c.summary)) ++ "\n" ++
    Report.reference

/-- The formulas and functions of a document. -/
def listText (d : Document) : String :=
  let none_ := line "  (none)"
  let formula (f : Formula) (number : Nat) :=
    line ("  " ++ number.repr ++ ": y = " ++ f.text ++ if f.error.isSome then " (error)" else "")
  line "formulas:" ++ (if d.formulas.isEmpty then none_ else "") ++
    String.join ((d.formulas.zipIdx 1).map fun (f, number) => formula f number) ++
    line "functions:" ++ (if d.functions.functions.isEmpty then none_ else "") ++
    String.join (d.functions.functions.map fun f => line ("  " ++ f.text))

/-- The tree of a formula, or why there is none. -/
def treeText (f : Formula) : String :=
  match f.expr, f.error with
  | some e, _ => e.text plotVariables ++ if e.isConstant then " (constant)" else ""
  | none, some _ => "(error)"
  | none, none => "(empty)"

/-- The trees of all formulas. -/
def treesText (d : Document) : String :=
  if d.formulas.isEmpty then noFormula
  else String.join ((d.formulas.zipIdx 1).map fun (f, number) =>
    line (number.repr ++ ": " ++ treeText f))

/-- The errors of a document. -/
def errorsText (d : Document) : String :=
  if d.errors.isEmpty then line "no errors"
  else String.join (d.errors.map fun e => line e.heading ++ line ("  " ++ e.message))

/-! ### Plotting -/

/-- Writes the files of a plot and starts the plotting program. -/
def plot (around : Surroundings) (s : Session) : Session × Reply :=
  let formulas := Plot.drawable s.document
  if formulas.isEmpty then s.finish noFormula
  else
    match formulas.mapM (Plot.dataSet? s.viewport) with
    | none => (s, ⟨"", [], some (.failed ⟨"a curve cannot be divided finely enough", []⟩)⟩)
    | some sets =>
      let names := Plot.FileNames.at around.stamp
      let hidden := String.join ((sets.filter (!·.isVisible)).map fun set =>
        line ("note: formula " ++ set.number.repr ++ " is not visible"))
      let shown := sets.filter (·.isVisible)
      let script := if shown.isEmpty then "" else Plot.scriptText names s.viewport shown
      let files := [(names.data, Plot.dataText s.viewport shown), (names.script, script)]
      let next := { s with mode := .command }
      if shown.isEmpty then (next, ⟨hidden ++ line "nothing to plot" ++ "\n", files, none⟩)
      else if around.canPlot then
        let summary := line ("plotted " ++ shown.length.repr ++ " formula(s) to " ++ names.picture)
        (next, ⟨hidden ++ summary ++ "\n", files, none⟩)
      else
        let failure : Failure := ⟨"failed to spawn gnuplot (is it installed and in PATH?)",
          ["No such file or directory (os error 2)"]⟩
        (next, ⟨hidden, files, some (.failed failure)⟩)

/-! ### Answers -/

/-- Carries out a command, or asks its first question. -/
def obey (around : Surroundings) (s : Session) : Command → Session × Reply
  | .help => s.finish helpText
  | .quit => (s, ⟨"", [], some .quit⟩)
  | .add => s.askOn .adding ""
  | .set => if s.document.formulas.isEmpty then s.finish noFormula else s.askOn .choosing ""
  | .list => s.finish (listText s.document)
  | .funcs =>
    s.askOn (.defining []) (line "note: one definition per line, e.g. 'sq(a) = a * a'" ++
      line "note: leave a line blank to finish")
  | .window =>
    s.askOn (.resizing .scale s.viewport) (line ("viewport = " ++ s.viewport.text) ++ "\n" ++
      line "note: leave blank to skip" ++ line "note: the origin is the pixel position of (0, 0)")
  | .tree => s.finish (treesText s.document)
  | .tokens => s.askOn .tokens ""
  | .errors => s.finish (errorsText s.document)
  | .plot => s.plot around

/-- Takes a word for a command. -/
def takeCommand (around : Surroundings) (s : Session) (word : String) : Session × Reply :=
  let (s, reply) := match Command.ofName? (Text.lowercase word) with
    | some c => s.obey around c
    | none => s.finish (line "Unknown command, try \"help\" for help")
  (s, { reply with text := "\n" ++ reply.text })

/-- Takes the text of a new formula; nothing adds none. -/
def takeNew (s : Session) (text : String) : Session × Reply :=
  if text.isEmpty then s.finish ""
  else
    let d := s.document.addFormula text
    let index := s.document.formulas.length
    finish { s with document := d }
      (line ("added formula " ++ (index + 1).repr) ++ formulaReport d index)

/-- Takes the number of the formula to edit; nothing edits none. -/
def takeNumber (s : Session) (text : String) : Session × Reply :=
  if text.isEmpty then s.finish ""
  else match Decimal.readIndex text with
    | .error r => s.finish (refusal text r)
    | .ok 0 => s.finish (line "error: there is no formula 0")
    | .ok (index + 1) =>
      match s.document.formulas[index]? with
      | none => s.finish (line ("error: there is no formula " ++ (index + 1).repr))
      | some f =>
        s.askOn (.editing index) (line ("was: y = " ++ f.text) ++
          line "note: leave blank to remove the formula")

/-- Takes the new text of a formula; nothing removes it. -/
def takeEdit (s : Session) (index : Nat) (text : String) : Session × Reply :=
  let number := (index + 1).repr
  if text.isEmpty then
    finish { s with document := (s.document.removeFormula index).1 }
      (line ("removed formula " ++ number))
  else
    let (d, changed) := s.document.setFormula index text
    let unchanged :=
      if changed = some false then line ("note: formula " ++ number ++ " is unchanged") else ""
    finish { s with document := d } (unchanged ++ formulaReport d index)

/-- Takes a definition, or nothing to read those entered. -/
def takeDefinition (s : Session) (entered : List String) (text : String) : Session × Reply :=
  if !text.isEmpty then s.askOn (.defining (text :: entered)) ""
  else
    let (d, changed) := s.document.setFunctionsText ("\n".intercalate entered.reverse)
    finish { s with document := d }
      (line ("defined " ++ d.functions.size.repr ++ " function(s)") ++
        (if changed then line "note: some formulas changed" else "") ++ functionsReport d)

/-- Takes over a draft of the viewport, unless it has a fault. -/
def resize (s : Session) (draft : Viewport Float) : Session × Reply :=
  match ViewportFault.of? draft with
  | some .scale => s.finish (line "error: scale must be positive")
  | some .size => s.finish (line "error: canvas size must not be negative")
  | none => finish { s with viewport := draft } ""

/-- Takes a number of the viewport; nothing keeps it.  Anything else gives up the draft. -/
def takeDimension (s : Session) (dimension : Dimension) (draft : Viewport Float) (text : String) :
    Session × Reply :=
  let go (draft : Viewport Float) := match dimension.next? with
    | some d => s.askOn (.resizing d draft) ""
    | none => s.resize draft
  if text.isEmpty then go draft
  else match Decimal.readReal text with
    | .ok x => go (dimension.set draft x)
    | .error r => s.finish (refusal text r)

/-- Answers a line of the user. -/
def step (around : Surroundings) (s : Session) (input : String) : Session × Reply :=
  let text := Text.trim input
  match s.mode with
  | .command => s.takeCommand around text
  | .adding => s.takeNew text
  | .choosing => s.takeNumber text
  | .editing index => s.takeEdit index text
  | .defining entered => s.takeDefinition entered text
  | .resizing dimension draft => s.takeDimension dimension draft text
  | .tokens => s.finish (Report.tokens text)

end Session

end FormulaPlot
