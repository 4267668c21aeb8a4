import Routine.Production.Phrase

/-! # Parsing

A phrase is read by carrying out its procedure, reading the phrases it calls in turn. That ends
because every call is of lesser measure. `Phrase.read_eq` is the equation that says so without any
measure, and `Phrase.read_post` the principle that follows from it: what every procedure guarantees
about its phrase, as long as the phrases it calls guarantee the same, holds of all phrases that are
read.

Each part of a program has its procedure. A program is parsed from a feed of tokens by a cursor that
has drawn nothing. -/

namespace Routine

/-- Carries out a procedure that keeps to its contract; `answer` reads the phrases it calls. -/
def Procedure.runWithin {α : Type} {m bound : Nat}
    (answer : (p : Phrase) → (s : Cursor) → p.measure s < m →
      { o : p.Result × Cursor // o.2.held ≤ s.size }) :
    (q : Procedure α) → (s : Cursor) →
      q.wp (Phrase.within m) (fun _ s' => s'.held ≤ bound) s →
      { o : α × Cursor // o.2.held ≤ bound }
  | .done a, s, h => ⟨(a, s), h⟩
  | .act a k, s, h => (k (a.perform s).1).runWithin answer (a.perform s).2 h
  | .call p k, s, h =>
    let o := answer p s h.1
    (k o.val.1).runWithin answer o.val.2 (h.2 _ _ o.property)

theorem Procedure.val_runWithin {α : Type} {m bound : Nat}
    {answer : (p : Phrase) → (s : Cursor) → p.measure s < m →
      { o : p.Result × Cursor // o.2.held ≤ s.size }}
    {answer' : (p : Phrase) → Cursor → p.Result × Cursor}
    (h : ∀ p s hm, (answer p s hm).val = answer' p s) (q : Procedure α) (s : Cursor)
    (hq : q.wp (Phrase.within m) (fun _ s' => s'.held ≤ bound) s) :
    (q.runWithin answer s hq).val = q.run answer' s := by
  induction q generalizing s with
  | done a => rfl
  | act a k ih => exact ih _ _ _
  | call p k ih =>
    have hm : p.measure s < m := hq.1
    simp only [runWithin, run]
    rw [ih, ← h p s hm]

namespace Phrase

/-- Reads a phrase, and leaves no more to hand out than there was before it. -/
def readWithin (p : Phrase) (s : Cursor) : { o : p.Result × Cursor // o.2.held ≤ s.size } :=
  p.procedure.runWithin (fun p' s' _ => p'.readWithin s') s (p.procedure_within s)
termination_by p.measure s

/-- Reads a phrase: its tree, and the cursor behind it. -/
def read (p : Phrase) (s : Cursor) : p.Result × Cursor := (p.readWithin s).val

/-- A phrase is read by carrying out its procedure. -/
theorem read_eq (p : Phrase) (s : Cursor) : p.read s = p.procedure.run read s := by
  rw [read, readWithin]
  exact Procedure.val_runWithin (fun _ _ _ => rfl) _ _ _

theorem held_read_le (p : Phrase) (s : Cursor) : (p.read s).2.held ≤ s.size :=
  (p.readWithin s).property

/-- A procedure that keeps to two contracts at once, the first of which is kept by calls of lesser
measure only. -/
theorem post_run_of_wp {α : Type} {c : Procedure.Contract} {m bound : Nat} {Q : α → Cursor → Prop}
    (q : Procedure α) (s : Cursor)
    (hm : q.wp (within m) (fun _ s' => s'.held ≤ bound) s) (hq : q.wp c Q s)
    (hread : ∀ p s, p.measure s < m → c.pre p s → c.post p s (p.read s).1 (p.read s).2) :
    Q (q.run read s).1 (q.run read s).2 := by
  induction q generalizing s with
  | done a => exact hq
  | act a k ih => exact ih _ _ hm hq
  | call p k ih =>
    exact ih _ _ (hm.2 _ _ (p.held_read_le s)) (hq.2 _ _ (hread p s hm.1 hq.1))

/-- What the procedure of every phrase guarantees, if the calls in it do, holds of every phrase. -/
theorem read_post {c : Procedure.Contract}
    (h : ∀ p s, c.pre p s → p.procedure.wp c (c.post p s) s) (p : Phrase) (s : Cursor)
    (hs : c.pre p s) : c.post p s (p.read s).1 (p.read s).2 := by
  rw [read_eq]
  exact post_run_of_wp _ s (p.procedure_within s) (h p s hs)
    (fun p' s' _ hs' => read_post h p' s' hs')
termination_by p.measure s

end Phrase

namespace Nonterminal

/-- How a part of a program is read. -/
def procedure : (n : Nonterminal) → Procedure n.Result
  | program => Production.program
  | body => Production.body
  | declarations => Production.declarations
  | declaration => Production.declaration
  | scalarType => Production.scalarType
  | names => Production.names
  | statements => Production.statements
  | statement => Production.statement
  | assignment => Production.assignment
  | conditional => Production.conditional
  | whileLoop => Production.whileLoop
  | repeatLoop => Production.repeatLoop
  | reading => Production.reading
  | writing => Production.writing
  | writable => Production.writable
  | loopHead => Production.loopHead
  | loopExit => Production.loopExit
  | condition => Production.condition
  | expression => Production.expression
  | simpleExpr => Production.simpleExpr
  | simpleTail => Production.simpleTail
  | term => Production.term
  | termTail => Production.termTail
  | operand => Production.operand
  | primary => Production.primary
  | constant => Production.constant
  | addOp => Production.addOp
  | mulOp => Production.mulOp
  | relOp => Production.relOp

/-- Parses a part of a program from a cursor: its tree, and the cursor behind it. -/
def parse (n : Nonterminal) (s : Cursor) : n.Result × Cursor :=
  n.procedure.run Phrase.read s

/-- What the procedure of a part guarantees, the phrases in it keeping to a contract, holds of the
part when it is parsed. -/
theorem post_parse {c : Procedure.Contract}
    (h : ∀ p s, c.pre p s → p.procedure.wp c (c.post p s) s) (n : Nonterminal) {s : Cursor}
    {Q : n.Result → Cursor → Prop} (hn : n.procedure.wp c Q s) :
    Q (n.parse s).1 (n.parse s).2 :=
  Procedure.run_of_wp (Phrase.read_post h) _ hn

end Nonterminal

/-- The outcome of parsing a whole program: its tree, if there is one, and the cursor at the end,
which has the diagnostics. -/
structure Parse where
  program : Option Program
  cursor : Cursor

namespace Parse

/-- What was found wrong, in the order in which it was found. -/
def diagnostics (p : Parse) : List Diagnostic := p.cursor.diagnostics.toList

/-- Something was found wrong. -/
def hasFault (p : Parse) : Bool := !p.diagnostics.isEmpty

end Parse

/-- Parses the program that a feed hands out. -/
def parse (f : Feed) : Parse :=
  let o := Nonterminal.program.parse (.ofFeed f)
  ⟨o.1, o.2⟩

end Routine
