import Routine.Parse

/-! # Sessions

A session applies operations to one cursor, one after another: it parses parts of a program, rejects
the last token, or passes over tokens. A cursor is reachable if a session on a feed leads to it. -/

namespace Routine

/-- What can be done to the cursor of a session. -/
inductive Operation where
  | parse (n : Nonterminal)
  | reject
  | synchronize (stop : KindSet)
deriving DecidableEq, Repr

namespace Operation

/-- The cursor behind an operation. -/
def apply (s : Cursor) : Operation → Cursor
  | parse n => (n.parse s).2
  | reject => s.reject
  | synchronize stop => s.synchronize stop

/-- The cursor behind operations, in order. -/
def applyAll (s : Cursor) (ops : List Operation) : Cursor := ops.foldl apply s

end Operation

/-- The trees of parts that are parsed one after another, and the cursor behind them. -/
def Cursor.parseAll (s : Cursor) : List Nonterminal → List (Sigma Nonterminal.Result) × Cursor
  | [] => ([], s)
  | n :: ns =>
    let o := n.parse s
    let rest := o.2.parseAll ns
    (⟨n, o.1⟩ :: rest.1, rest.2)

/-- A session on some feed leads to the cursor. -/
def Cursor.Reachable (s : Cursor) : Prop :=
  ∃ (f : Feed) (ops : List Operation), f.drawn = #[] ∧ s = Operation.applyAll (.ofFeed f) ops

end Routine
