/-! # Spacing between lexemes

Lexemes are separated by blanks and by comments. A comment begins with two slashes and ends before
the next newline. `Spacing.split` takes the longest spacing off the front of a text: nothing is
lost, and what is left begins with neither a blank nor a comment. -/

namespace Routine.Spacing

/-- A character that has no meaning but to separate lexemes. -/
def isBlank (c : Char) : Bool :=
  c = ' ' || c = '\t' || c = '\r' || c = '\n'

/-- A comment begins here. -/
def isComment (cs : List Char) : Bool :=
  match cs with
  | '/' :: '/' :: _ => true
  | _ => false

/-- The longest spacing at the front of a text, and the rest. Inside a comment only a newline is
looked for. -/
def splitFrom : (inComment : Bool) → List Char → List Char × List Char
  | _, [] => ([], [])
  | true, c :: cs =>
    let (blank, rest) := splitFrom (c != '\n') cs
    (c :: blank, rest)
  | false, c :: cs =>
    if isBlank c then
      let (blank, rest) := splitFrom false cs
      (c :: blank, rest)
    else if isComment (c :: cs) then
      let (blank, rest) := splitFrom true cs
      (c :: blank, rest)
    else
      ([], c :: cs)

/-- The spacing in front of the next lexeme, and the rest. -/
def split (cs : List Char) : List Char × List Char :=
  splitFrom false cs

theorem splitFrom_append (b : Bool) (cs : List Char) :
    (splitFrom b cs).1 ++ (splitFrom b cs).2 = cs := by
  induction cs generalizing b with
  | nil => cases b <;> rfl
  | cons c cs ih =>
    cases b with
    | true => simp [splitFrom, ih]
    | false =>
      rw [splitFrom]
      split
      · simp [ih]
      · split <;> simp [ih]

/-- Nothing is lost. -/
theorem split_append (cs : List Char) : (split cs).1 ++ (split cs).2 = cs :=
  splitFrom_append false cs

theorem length_split_le (cs : List Char) : (split cs).2.length ≤ cs.length := by
  have := congrArg List.length (split_append cs)
  simp at this
  omega

end Routine.Spacing
