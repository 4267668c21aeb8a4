import Routine.Kind
import Routine.Position

/-! # Diagnostics and events

A diagnostic tells what is wrong with a token and where the token stands. An event is a note about
the course of a run: a diagnostic as it is reported, or a step of the cursor or of recovery. -/

namespace Routine

/-- What is wrong with a token. -/
inductive Fault where
  /-- The text is no token at all. -/
  | invalid
  /-- No program goes on with this token. -/
  | unexpected
deriving DecidableEq, Repr, Inhabited

/-- A fault at a position. -/
structure Diagnostic where
  fault : Fault
  position : Position
deriving DecidableEq, Repr, Inhabited

namespace Fault

/-- What a token with the fault is called. -/
def label : Fault → String
  | invalid => "Invalid token"
  | unexpected => "Unexpected token"

end Fault

/-- A diagnostic is written as one sentence. -/
def Diagnostic.message (d : Diagnostic) : String :=
  d.fault.label ++ " at position " ++ d.position.text

/-- How much an event matters. -/
inductive Level where
  | trace
  | debug
deriving DecidableEq, Repr, Inhabited

/-- The name of a level. -/
def Level.label : Level → String
  | trace => "TRACE"
  | debug => "DEBUG"

/-- A note about the course of a run. -/
inductive Event where
  /-- A token that was handed back is handed out again. -/
  | redelivered (kind : Kind)
  /-- A diagnostic is about to be kept. -/
  | reported (d : Diagnostic)
  /-- Recovery passes over a token. -/
  | skipped (kind : Kind) (position : Position)
  /-- Recovery ends, having passed over `count` tokens, in front of a token of kind `resume`. -/
  | synchronized (count : Nat) (resume : Kind)
  /-- The body of the program is complete, but the input is not at its end. -/
  | leftover
deriving DecidableEq, Repr, Inhabited

namespace Event

/-- Diagnostics and recoveries matter more than single tokens. -/
def level : Event → Level
  | redelivered _ => .trace
  | reported _ => .debug
  | skipped _ _ => .trace
  | synchronized _ _ => .debug
  | leftover => .debug

/-- The sentence that tells what happened. -/
def message : Event → String
  | redelivered _ => "redelivering pushed back token"
  | reported d => d.message
  | skipped _ _ => "skipping token"
  | synchronized _ _ => "synchronized"
  | leftover => "tokens left after the program body"

/-- The named details of an event. -/
def details : Event → List (String × String)
  | redelivered k => [("kind", k.label)]
  | reported _ => []
  | skipped k p => [("kind", k.label), ("position", p.text)]
  | synchronized n k => [("skipped", n.repr), ("resume", k.label)]
  | leftover => []

end Event

end Routine
