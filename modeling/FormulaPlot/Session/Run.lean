/-
A whole run of the program.

The arguments either ask for something that is answered at once or start a session.  A
session then takes the user's lines one by one until it ends.  Everything here is
computed from what the program finds outside: its arguments, the files it may read and
the lines of its input.
-/
import FormulaPlot.CommandLine
import FormulaPlot.Session.Step

namespace FormulaPlot

/-- What is left behind by a run of the program. -/
structure Transcript where
  output : String
  files : List (String × String)
  errors : String
  exitCode : Nat

namespace Transcript

/-- What is left behind by the end of a session. -/
def ofEnding : Ending → Transcript
  | .quit => ⟨"", [], "", 0⟩
  | .failed f => ⟨"", [], f.text, 1⟩

/-- Puts some output and files in front. -/
def after (output : String) (files : List (String × String)) (t : Transcript) : Transcript :=
  { t with output := output ++ t.output, files := files ++ t.files }

end Transcript

namespace Session

/-! ### Starting -/

/-- The viewport of some options. -/
def viewportOf (o : CommandLine.Options) : Except Failure (Viewport Float) :=
  let scale := o.scale.getD 50
  let v : Viewport Float := .centered scale (o.width.getD 800) (o.height.getD 600)
  match ViewportFault.of? v with
  | some .scale => .error ⟨"scale must be positive, got " ++ Decimal.plain scale, []⟩
  | some .size => .error ⟨"canvas size must not be negative", []⟩
  | none => .ok v

/-- The text in the file of functions, if there is such an option.  `readFile` gives the
contents of a file or the reason why there are none. -/
def functionsOf (readFile : String → Except String String) (o : CommandLine.Options) :
    Except Failure (Option String) :=
  match o.functions with
  | none => .ok none
  | some path =>
    match readFile path with
    | .ok text => .ok (some text)
    | .error reason => .error ⟨"failed to read functions from '" ++ path ++ "'", [reason]⟩

/-- The document of some functions, and what is reported about it. -/
def withFunctions : Option String → Document × String
  | none => (.empty, "")
  | some text =>
    let d := (Document.empty.setFunctionsText text).1
    (d, functionsReport d)

/-- A document with one more formula, and what has been reported so far. -/
def withFormula (d : Document × String) (text : String) : Document × String :=
  let next := d.1.addFormula text
  (next, d.2 ++ formulaReport next d.1.formulas.length)

/-- The session that options start, and what is said before the first prompt. -/
def start (readFile : String → Except String String) (o : CommandLine.Options) :
    Except Failure (Session × String) := do
  let v ← viewportOf o
  let functions ← functionsOf readFile o
  let (d, report) := o.formulas.foldl withFormula (withFunctions functions)
  return (⟨d, v, .command⟩, report)

/-! ### Running -/

/-- What is said when a line of the input cannot be read. -/
def unreadable (reason : String) : Failure := ⟨"read from standard input failed", [reason]⟩

/-- The reason why bytes are no text. -/
def notText : String := "stream did not contain valid UTF-8"

/-- Takes lines one by one until the session ends or there are no more.  A line that is no
text is a failure. -/
def run (around : Surroundings) (s : Session) : List (Option String) → Transcript
  | [] => Transcript.after s.prompt [] (.ofEnding .quit)
  | none :: _ => Transcript.after s.prompt [] (.ofEnding (.failed (unreadable notText)))
  | some input :: rest =>
    let (next, reply) := s.step around input
    let others := match reply.ending with
      | some ending => Transcript.ofEnding ending
      | none => next.run around rest
    others.after (s.prompt ++ reply.text) reply.files

end Session

/-- The name and version of the program. -/
def versionText : String := "graph_eq 0.1.0\n"

/-- How the program is used. -/
def usageText : String :=
  String.join (["Plot formulas of x with gnuplot", "", "Usage: graph_eq [OPTIONS]", "", "Options:",
    "  -f, --formula <FORMULA>  Formula to plot. May be given more than once",
    "      --functions <FILE>   File of user defined functions, one definition per line",
    "      --scale <SCALE>      Pixels per logical unit [default: 50]",
    "      --width <WIDTH>      Canvas width in pixels [default: 800]",
    "      --height <HEIGHT>    Canvas height in pixels [default: 600]",
    "  -v, --verbose...         Log more (-v for info, -vv for debug, -vvv for trace)",
    "  -h, --help               Print help",
    "  -V, --version            Print version"].map (· ++ "\n"))

/-- What is said about arguments that make no sense. -/
def usageError : String := "error: unexpected arguments\n\nFor more information, try '--help'.\n"

/-- A run of the program from its arguments, the files it can read and the lines of its
input. -/
def runProgram (around : Surroundings) (readFile : String → Except String String)
    (arguments : List String) (input : List (Option String)) : Transcript :=
  match CommandLine.read arguments with
  | none => ⟨"", [], usageError, 2⟩
  | some .help => ⟨usageText, [], "", 0⟩
  | some .version => ⟨versionText, [], "", 0⟩
  | some (.session o) =>
    match Session.start readFile o with
    | .error f => .ofEnding (.failed f)
    | .ok (s, report) => (s.run around input).after report []

end FormulaPlot
