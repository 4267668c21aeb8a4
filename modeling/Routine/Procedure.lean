import Routine.Cursor
import Routine.Nonterminal

/-! # Procedures

A procedure is a description of how a part of a program is read: a tree of actions on a cursor and
of calls of the phrases that contain themselves. It does nothing by itself. `Procedure.run` carries
it out, with any answer to its calls; `Procedure.wp` is the condition on the cursor under which it
ends as required, whatever the calls answer within their contract. Procedures are a monad and are
written with `do`. -/

namespace Routine

/-- What a procedure can do to the cursor. -/
inductive Action where
  /-- Draw the next token. -/
  | next
  /-- Hand back the last token. -/
  | pushBack
  /-- Report the last token as unexpected. -/
  | reject
  /-- Pass over tokens up to the first of a set. -/
  | synchronize (stop : KindSet)
  /-- Add an event to the log. -/
  | note (e : Event)

namespace Action

/-- What an action answers. -/
abbrev Answer : Action → Type
  | next => Token
  | pushBack | reject | synchronize _ | note _ => Unit

/-- The answer of an action at a cursor, and the cursor behind it. -/
def perform : (a : Action) → Cursor → a.Answer × Cursor
  | next, s => s.next
  | pushBack, s => ((), s.pushBack)
  | reject, s => ((), s.reject)
  | synchronize stop, s => ((), s.synchronize stop)
  | note e, s => ((), s.note e)

end Action

/-- The parts of a program that contain themselves, and the repetitions. -/
inductive Phrase where
  /-- Expressions, which occur in parentheses within expressions. -/
  | expression
  /-- Additive operators, each with a term. -/
  | simpleTail
  /-- Multiplicative operators, each with an operand. -/
  | termTail
  /-- Blocks, which occur in statements within blocks. -/
  | statements
  /-- Semicolons, each with a statement. -/
  | moreStatements
  /-- Commas, each with a name. -/
  | moreNames
  /-- Declarations behind the first, each with its semicolon. -/
  | moreDeclarations
deriving DecidableEq, Repr

/-- The tree of a phrase. -/
abbrev Phrase.Result : Phrase → Type
  | expression => Expr
  | simpleTail => SimpleTail
  | termTail => TermTail
  | statements | moreStatements => Block
  | moreNames => Option (List Ident)
  | moreDeclarations => Option (List Decl)

/-- A description of how to read something of type `α`. -/
inductive Procedure (α : Type) where
  | done (a : α)
  | act (a : Action) (k : a.Answer → Procedure α)
  | call (p : Phrase) (k : p.Result → Procedure α)

namespace Procedure

variable {α β : Type}

/-- One procedure after another, which may depend on the result of the first. -/
def andThen (p : Procedure α) (k : α → Procedure β) : Procedure β :=
  match p with
  | done a => k a
  | act a k' => act a fun x => (k' x).andThen k
  | call f k' => call f fun x => (k' x).andThen k

instance : Monad Procedure where
  pure := done
  bind := andThen

@[simp] theorem pure_eq (a : α) : (pure a : Procedure α) = done a := rfl

@[simp] theorem done_bind (a : α) (k : α → Procedure β) : done a >>= k = k a := rfl

@[simp] theorem act_bind (a : Action) (k' : a.Answer → Procedure α) (k : α → Procedure β) :
    act a k' >>= k = act a fun x => k' x >>= k := rfl

@[simp] theorem call_bind (f : Phrase) (k' : f.Result → Procedure α) (k : α → Procedure β) :
    call f k' >>= k = call f fun x => k' x >>= k := rfl

theorem bind_done (p : Procedure α) : p >>= done = p := by
  induction p with
  | done a => rfl
  | act a k ih => exact congrArg (act a) (funext ih)
  | call f k ih => exact congrArg (call f) (funext ih)

theorem bind_bind {γ : Type} (p : Procedure α) (k : α → Procedure β) (l : β → Procedure γ) :
    p >>= k >>= l = p >>= fun a => k a >>= l := by
  induction p with
  | done a => rfl
  | act a k' ih => exact congrArg (act a) (funext ih)
  | call f k' ih => exact congrArg (call f) (funext ih)

instance : LawfulMonad Procedure :=
  LawfulMonad.mk' Procedure
    (fun p => bind_done p) (fun _ _ => rfl) bind_bind

/-- Draws the next token. -/
def next : Procedure Token := act .next done

/-- Hands back the last token. -/
def pushBack : Procedure Unit := act .pushBack done

/-- Reports the last token as unexpected. -/
def reject : Procedure Unit := act .reject done

/-- Passes over tokens up to the first of a set. -/
def synchronize (stop : KindSet) : Procedure Unit := act (.synchronize stop) done

/-- Adds an event to the log. -/
def note (e : Event) : Procedure Unit := act (.note e) done

/-- Reads a phrase. -/
def read (p : Phrase) : Procedure p.Result := call p done

/-- Draws the next token and tells whether it is of kind `k`. -/
def expect (k : Kind) : Procedure Bool := do
  let t ← next
  return t.kind = k

/-- The kind of the next token, which is handed back. -/
def peek : Procedure Kind := do
  let t ← next
  pushBack
  return t.kind

/-- Reports the last token and passes over tokens up to what may come behind the part. -/
def recover (n : Nonterminal) : Procedure Unit := do
  reject
  synchronize n.follow

/-- Recovers from a fault in a part that is missing because of it. -/
def fail (n : Nonterminal) : Procedure (Option α) := do
  recover n
  return none

/-- Carries out a procedure from a cursor; `answer` reads the phrases it calls. -/
def run (answer : (p : Phrase) → Cursor → p.Result × Cursor) : Procedure α → Cursor → α × Cursor
  | done a, s => (a, s)
  | act a k, s => (k (a.perform s).1).run answer (a.perform s).2
  | call p k, s => (k (answer p s).1).run answer (answer p s).2

theorem run_bind (answer : (p : Phrase) → Cursor → p.Result × Cursor) (p : Procedure α)
    (k : α → Procedure β) (s : Cursor) :
    (p >>= k).run answer s = (k (p.run answer s).1).run answer (p.run answer s).2 := by
  induction p generalizing s with
  | done a => rfl
  | act a k' ih => exact ih _ _
  | call f k' ih => exact ih _ _

/-- What is asked of the cursor when a phrase is called, and what is known of its answer. -/
structure Contract where
  pre : Phrase → Cursor → Prop
  post : (p : Phrase) → Cursor → p.Result → Cursor → Prop

/-- From the cursor the procedure keeps to the contract in all its calls and ends in `Q`, whatever
the calls answer within the contract. -/
def wp (c : Contract) (Q : α → Cursor → Prop) : Procedure α → Cursor → Prop
  | done a, s => Q a s
  | act a k, s => (k (a.perform s).1).wp c Q (a.perform s).2
  | call p k, s => c.pre p s ∧ ∀ x s', c.post p s x s' → (k x).wp c Q s'

section wp

variable {c : Contract} {Q : α → Cursor → Prop} {s : Cursor}

@[simp] theorem wp_done (a : α) : (done a).wp c Q s ↔ Q a s := Iff.rfl

@[simp] theorem wp_next {Q : Token → Cursor → Prop} : next.wp c Q s ↔ Q s.next.1 s.next.2 := Iff.rfl

@[simp] theorem wp_pushBack {Q : Unit → Cursor → Prop} : pushBack.wp c Q s ↔ Q () s.pushBack :=
  Iff.rfl

@[simp] theorem wp_reject {Q : Unit → Cursor → Prop} : reject.wp c Q s ↔ Q () s.reject := Iff.rfl

@[simp] theorem wp_synchronize {Q : Unit → Cursor → Prop} (stop : KindSet) :
    (synchronize stop).wp c Q s ↔ Q () (s.synchronize stop) := Iff.rfl

@[simp] theorem wp_note {Q : Unit → Cursor → Prop} (e : Event) :
    (note e).wp c Q s ↔ Q () (s.note e) := Iff.rfl

@[simp] theorem wp_read (p : Phrase) {Q : p.Result → Cursor → Prop} :
    (read p).wp c Q s ↔ c.pre p s ∧ ∀ x s', c.post p s x s' → Q x s' := Iff.rfl

@[simp] theorem wp_bind (p : Procedure α) (k : α → Procedure β) {Q : β → Cursor → Prop} :
    (p >>= k).wp c Q s ↔ p.wp c (fun a s' => (k a).wp c Q s') s := by
  induction p generalizing s with
  | done a => rfl
  | act a k' ih => exact ih _
  | call f k' ih =>
    exact and_congr Iff.rfl
      (forall_congr' fun x => forall_congr' fun s' => imp_congr Iff.rfl (ih x))

@[simp] theorem wp_expect (k : Kind) {Q : Bool → Cursor → Prop} :
    (expect k).wp c Q s ↔ Q (s.next.1.kind = k) s.next.2 := Iff.rfl

@[simp] theorem wp_peek {Q : Kind → Cursor → Prop} :
    peek.wp c Q s ↔ Q s.next.1.kind s.next.2.pushBack := Iff.rfl

@[simp] theorem wp_recover (n : Nonterminal) {Q : Unit → Cursor → Prop} :
    (recover n).wp c Q s ↔ Q () (s.reject.synchronize n.follow) := Iff.rfl

@[simp] theorem wp_fail (n : Nonterminal) {Q : Option α → Cursor → Prop} :
    (fail n).wp c Q s ↔ Q none (s.reject.synchronize n.follow) := Iff.rfl

/-- A weaker end asks no more. -/
theorem wp_mono {Q' : α → Cursor → Prop} (h : ∀ a s, Q a s → Q' a s) (p : Procedure α)
    (hp : p.wp c Q s) : p.wp c Q' s := by
  induction p generalizing s with
  | done a => exact h a s hp
  | act a k ih => exact ih _ hp
  | call f k ih => exact ⟨hp.1, fun x s' hx => ih x (hp.2 x s' hx)⟩

/-- Two ends that are both required can be required at once. -/
theorem wp_and {Q' : α → Cursor → Prop} (p : Procedure α) (hp : p.wp c Q s) (hp' : p.wp c Q' s) :
    p.wp c (fun a s' => Q a s' ∧ Q' a s') s := by
  induction p generalizing s with
  | done a => exact ⟨hp, hp'⟩
  | act a k ih => exact ih _ hp hp'
  | call f k ih => exact ⟨hp.1, fun x s' hx => ih x (hp.2 x s' hx) (hp'.2 x s' hx)⟩

/-- Ends that are all required can be required at once if nothing is asked of the calls. -/
theorem wp_forall {ι : Sort _} {Q : ι → α → Cursor → Prop} (hpre : ∀ p s, c.pre p s)
    (p : Procedure α) (hp : ∀ i, p.wp c (Q i) s) : p.wp c (fun a s' => ∀ i, Q i a s') s := by
  induction p generalizing s with
  | done a => exact hp
  | act a k ih => exact ih _ hp
  | call f k ih => exact ⟨hpre f s, fun x s' hx => ih x fun i => (hp i).2 x s' hx⟩

/-- If the calls answer within the contract, the procedure ends as required. -/
theorem run_of_wp {answer : (p : Phrase) → Cursor → p.Result × Cursor}
    (hanswer : ∀ p s, c.pre p s → c.post p s (answer p s).1 (answer p s).2) (p : Procedure α)
    (hp : p.wp c Q s) : Q (p.run answer s).1 (p.run answer s).2 := by
  induction p generalizing s with
  | done a => exact hp
  | act a k ih => exact ih _ hp
  | call f k ih => exact ih _ (hp.2 _ _ (hanswer f s hp.1))

end wp

end Procedure

end Routine
