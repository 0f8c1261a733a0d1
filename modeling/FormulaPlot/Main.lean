/-
The program at a terminal.

This module only moves text: arguments and lines go into the session, and what the
session answers is printed or written to files.  It cannot start other programs, so a
plot ends with its files written and a failure to start the plotting program.
-/
import FormulaPlot.Session.Run
import Std.Time

namespace FormulaPlot

/-- The moment as it goes into file names. -/
def currentStamp : IO String := do
  let now ← Std.Time.PlainDateTime.now
  return now.format "uuuu-MM-dd'_'HH-mm-ss"

/-- The reason for an input or output error. -/
def ioReason : IO.Error → String
  | .noFileOrDirectory .. => "No such file or directory (os error 2)"
  | .alreadyExists .. => "File exists (os error 17)"
  | e => e.toString

/-- The text of a file, or the reason why it cannot be read. -/
def textOfFile (path : String) : IO (Except String String) := do
  try
    match String.fromUTF8? (← IO.FS.readBinFile path) with
    | some text => return .ok text
    | none => return .error Session.notText
  catch e => return .error (ioReason e)

/-- Writes a file that must not exist yet. -/
def writeNew (path text : String) : IO Unit := do
  let file ← IO.FS.Handle.mk path .writeNew
  file.putStr text
  file.flush

/-- Reads bytes up to the end of a line. -/
partial def readBytes (input : IO.FS.Stream) (line : ByteArray) : IO ByteArray := do
  let next ← input.read 1
  if next.isEmpty then return line
  else if next.get! 0 == 10 then return line ++ next
  else readBytes input (line ++ next)

/-- Prints a transcript and gives its exit code. -/
def conclude (t : Transcript) : IO UInt32 := do
  IO.print t.output
  IO.eprint t.errors
  return t.exitCode.toUInt32

/-- Lets the user and the session talk until the session or the input ends. -/
partial def converse (input : IO.FS.Stream) (s : Session) : IO UInt32 := do
  IO.print s.prompt
  (← IO.getStdout).flush
  let bytes ← readBytes input .empty
  if bytes.isEmpty then conclude (.ofEnding .quit)
  else match String.fromUTF8? bytes with
    | none => conclude (.ofEnding (.failed (Session.unreadable Session.notText)))
    | some line =>
      let (next, reply) := s.step ⟨← currentStamp, false⟩ line
      try
        for (path, text) in reply.files do writeNew path text
      catch e =>
        return ← conclude (.ofEnding (.failed ⟨"failed to open output file", [ioReason e]⟩))
      IO.print reply.text
      match reply.ending with
      | some ending => conclude (.ofEnding ending)
      | none => converse input next

/-- Carries out what the arguments ask for. -/
def perform (arguments : List String) : IO UInt32 := do
  match CommandLine.read arguments with
  | some (.session o) =>
    let contents ← match o.functions with
      | some path => textOfFile path
      | none => pure (.ok "")
    match Session.start (fun _ => contents) o with
    | .error f => conclude (.ofEnding (.failed f))
    | .ok (s, report) =>
      IO.print report
      converse (← IO.getStdin) s
  | _ => conclude (runProgram ⟨"", false⟩ (fun _ => .error "") arguments [])

end FormulaPlot

/-- The program. -/
def main (arguments : List String) : IO UInt32 := FormulaPlot.perform arguments
