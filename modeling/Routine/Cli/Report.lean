import Routine.Cli.Input
import Routine.Cli.Request
import Routine.Parse

/-! # What a run prints

A run prints either the tokens of the source text or its diagnostics and, if that is asked for, the
tree of the program. It fails if there is a diagnostic. A verbose run first prints its options and
then, before the diagnostics, the events that matter, as they happen. -/

namespace Routine.Cli

/-- What a run leaves behind. -/
structure Outcome where
  exit : Nat
  stdout : String
  stderr : String
deriving DecidableEq, Repr, Inhabited

/-- The part of the program an event is noted by. -/
def source : Event → String
  | .redelivered _ | .reported _ => "syntactic::parser::cursor"
  | .skipped _ _ | .synchronized _ _ => "syntactic::parser"
  | .leftover => "syntactic::parser::decl"

/-- A text as a line. -/
def line (s : String) : String := s ++ "\n"

/-- A text for each element, one after another. -/
def lines {α : Type} (text : α → String) (xs : List α) : String :=
  String.join (xs.map fun x => line (text x))

/-- A note in the log, with its named details. -/
def logText (source message : String) (details : List (String × String)) : String :=
  "DEBUG " ++ source ++ ": " ++ message ++
    String.join (details.map fun d => " " ++ d.1 ++ "=" ++ d.2)

/-- An event as a note in the log. -/
def eventText (e : Event) : String := logText (source e) e.message e.details

/-- The first note of a verbose run. -/
def startText (o : Options) : String :=
  logText Refusal.programName "starting" [("args", o.text)]

/-- A diagnostic as it is printed. -/
def diagnosticText (d : Diagnostic) : String := "Error: " ++ d.message

/-- What is printed before the source text is read. -/
def preamble (o : Options) : String := if o.verbose then line (startText o) else ""

/-- The events that a verbose run prints. -/
def shownEvents (o : Options) (p : Parse) : List Event :=
  if o.verbose then p.cursor.log.toList.filter fun e => e.level = .debug else []

/-- What is printed of a parse. -/
def parseText (o : Options) (p : Parse) : String :=
  lines eventText (shownEvents o p) ++ lines diagnosticText p.diagnostics ++
    (if o.tree then lines Program.text p.program.toList else "")

/-- What a run on a source text leaves behind, apart from the preamble. -/
def check (o : Options) (text : String) : Outcome :=
  if o.tokens then
    ⟨0, lines Token.line (tokenize text), ""⟩
  else
    let p := parse (.ofString text)
    let n := p.diagnostics.length
    if n = 0 then ⟨0, parseText o p, ""⟩
    else ⟨1, parseText o p, "Error: " ++ n.repr ++ " syntax error(s)\n"⟩

/-- What a run leaves behind, apart from the preamble, once the source text is had or is known not
to be. -/
def finish (o : Options) : Except InputFault String → Outcome
  | .ok text => check o text
  | .error f => ⟨1, "", f.message⟩

/-- What a run in its surroundings leaves behind. -/
def run (args : List String) (s : Surroundings) : Outcome :=
  match Request.ofArgs args with
  | .error r => ⟨1, "", r.message⟩
  | .ok .help => ⟨0, usage, ""⟩
  | .ok (.run o) =>
    let text :=
      match o.sourceFile with
      | some path => (FileSystem.ofSurroundings s).readText path
      | none => decodeText s.stdin .readingInput
    let outcome := finish o text
    { outcome with stdout := preamble o ++ outcome.stdout }

end Routine.Cli
