import Routine.Cli.Report

/-! # The command line

Takes the arguments, gets the source text from a file or the standard input, and prints what the run
leaves behind. -/

namespace Routine.Cli

/-- The cause of a failure of the system. -/
def causeOf : IO.Error → Cause
  | .noFileOrDirectory _ _ _ => .notFound
  | .inappropriateType _ code text | .resourceExhausted _ code text
  | .permissionDenied _ code text | .invalidArgument _ code text => causeOfCode code text
  | e => .system (toString e) 0
where
  /-- The cause a number stands for. -/
  causeOfCode (code : UInt32) (text : String) : Cause :=
    if code = 20 then .notDirectory
    else if code = 21 then .isDirectory
    else if code = 36 then .nameTooLong
    else .system text code.toNat

/-- The text of a file. -/
def readFile (path : String) : IO (Except InputFault String) := do
  match ← (IO.FS.Handle.mk path .read).toBaseIO with
  | .error e => return .error (.opening path (causeOf e))
  | .ok handle =>
    match ← handle.readBinToEnd.toBaseIO with
    | .error e => return .error (.reading (causeOf e))
    | .ok bytes => return decodeText bytes .reading

/-- The text of the standard input. -/
def readInput : IO (Except InputFault String) := do
  let stdin ← IO.getStdin
  match ← stdin.readBinToEnd.toBaseIO with
  | .error e => return .error (.readingInput (causeOf e))
  | .ok bytes => return decodeText bytes .readingInput

/-- Prints what a run leaves behind. -/
def Outcome.print (o : Outcome) : IO UInt32 := do
  (← IO.getStdout).putStr o.stdout
  (← IO.getStderr).putStr o.stderr
  return o.exit.toUInt32

end Routine.Cli

open Routine.Cli in
/-- Runs the checker. -/
def main (args : List String) : IO UInt32 := do
  match Request.ofArgs args with
  | .error r => Outcome.print ⟨1, "", r.message⟩
  | .ok .help => Outcome.print ⟨0, usage, ""⟩
  | .ok (.run o) =>
    (← IO.getStdout).putStr (preamble o)
    let text ←
      match o.sourceFile with
      | some path => readFile path
      | none => readInput
    (finish o text).print
